import Mathlib

/-!
# Grouped aggregation, in one phase and in two

An aggregate reads a value off every row, or none, and combines the values it got with an
associative and commutative operation.  A grouping gives every key of a list of rows the
aggregates of the rows of that key.

In two phases the rows lie in parts.  The first phase groups every part on its own, its
results are moved around in any way, and the second phase groups those by their key and
combines them.  `GroupsOf.two_phase` says that this is the grouping of all rows.
-/

namespace TwoPhase

open List

/-! ## Aggregates -/

section Aggregates

variable {α V : Type}

/-- An aggregate: what it reads off a row, and how values are combined. -/
structure Aggregate (α V : Type) where
  value : α → Option V
  op : V → V → V
  assoc : ∀ a b c, op (op a b) c = op a (op b c)
  comm : ∀ a b, op a b = op b a

/-- Values that may be missing, combined. -/
def reduceWith (op : V → V → V) (values : List (Option V)) : Option V :=
  values.foldr (Option.merge op) none

/-- The aggregate of a list of rows. -/
def Aggregate.reduce (aggregate : Aggregate α V) (rows : List α) : Option V :=
  reduceWith aggregate.op (rows.map aggregate.value)

variable {op : V → V → V}

theorem merge_assoc (hassoc : ∀ a b c, op (op a b) c = op a (op b c)) (a b c : Option V) :
    (a.merge op b).merge op c = a.merge op (b.merge op c) := by
  cases a <;> cases b <;> cases c <;> simp [Option.merge, hassoc]

theorem merge_comm (hcomm : ∀ a b, op a b = op b a) (a b : Option V) :
    a.merge op b = b.merge op a := by
  cases a <;> cases b <;> simp [Option.merge, hcomm]

section

variable (hassoc : ∀ a b c, op (op a b) c = op a (op b c))
include hassoc

theorem reduceWith_append (values values' : List (Option V)) :
    reduceWith op (values ++ values') =
      (reduceWith op values).merge op (reduceWith op values') := by
  induction values with
  | nil => simp [reduceWith]
  | cons value values ih =>
    show value.merge op (reduceWith op (values ++ values')) =
      (value.merge op (reduceWith op values)).merge op (reduceWith op values')
    rw [ih, merge_assoc hassoc]

theorem reduceWith_flatten (pieces : List (List (Option V))) :
    reduceWith op (pieces.map (reduceWith op)) = reduceWith op pieces.flatten := by
  induction pieces with
  | nil => rfl
  | cons piece pieces ih =>
    rw [flatten_cons, reduceWith_append hassoc, ← ih]
    rfl

theorem reduceWith_perm (hcomm : ∀ a b, op a b = op b a) {values values' : List (Option V)}
    (h : values.Perm values') : reduceWith op values = reduceWith op values' := by
  have : LeftCommutative (Option.merge op) := ⟨fun a b c => by
    rw [← merge_assoc hassoc, merge_comm hcomm a b, merge_assoc hassoc]⟩
  exact h.foldr_eq none

end

theorem reduceWith_eq_foldr {unit : V} (hunit : ∀ a, op a unit = a) (values : List (Option V)) :
    reduceWith op values = if values.reduceOption = [] then none
      else some (values.reduceOption.foldr op unit) := by
  induction values with
  | nil => rfl
  | cons value values ih =>
    show value.merge op (reduceWith op values) = _
    cases value with
    | none => rw [ih, reduceOption_cons_of_none, Option.merge_none_left]
    | some v =>
      rw [ih, reduceOption_cons_of_some, if_neg (cons_ne_nil _ _), foldr_cons]
      split
      · next hnil => rw [hnil, foldr_nil, hunit, Option.merge_none_right]
      · rfl

variable (aggregates : List (Aggregate α V))

/-- Several aggregates of the same rows. -/
def reduceAll (rows : List α) : List (Option V) :=
  aggregates.map fun aggregate => aggregate.reduce rows

/-- Results of several aggregates, combined position by position. -/
def mergeAll (ops : List (V → V → V)) (results : List (List (Option V))) : List (Option V) :=
  ops.zipIdx.map fun entry => reduceWith entry.1
    (results.map fun result => result.getD entry.2 none)

theorem reduceAll_perm {rows rows' : List α}
    (h : rows.Perm rows') : reduceAll aggregates rows = reduceAll aggregates rows' :=
  map_congr_left fun aggregate _ =>
    reduceWith_perm aggregate.assoc aggregate.comm (h.map aggregate.value)

theorem mergeAll_perm {aggregates : List (Aggregate α V)}
    {results results' : List (List (Option V))} (h : results.Perm results') :
    mergeAll (aggregates.map Aggregate.op) results =
      mergeAll (aggregates.map Aggregate.op) results' := by
  refine map_congr_left fun entry hentry => ?_
  obtain ⟨aggregate, -, haggregate⟩ := mem_map.mp (fst_mem_of_mem_zipIdx hentry)
  rw [← haggregate]
  exact reduceWith_perm aggregate.assoc aggregate.comm (h.map _)

/-- **The results of the pieces, combined, are the results of the whole.** -/
theorem mergeAll_map_reduceAll (pieces : List (List α)) :
    mergeAll (aggregates.map Aggregate.op) (pieces.map (reduceAll aggregates)) =
      reduceAll aggregates pieces.flatten := by
  rw [mergeAll, zipIdx_map, map_map, reduceAll]
  conv_rhs => rw [← zipIdx_map_fst 0 aggregates, map_map]
  refine map_congr_left fun entry hentry => ?_
  have hposition : ∀ piece, (reduceAll aggregates piece).getD entry.2 none =
      entry.1.reduce piece := by
    intro piece
    rw [reduceAll, getD_eq_getElem?_getD, getElem?_map,
      mem_zipIdx_iff_getElem?.mp hentry]
    rfl
  show reduceWith entry.1.op _ = reduceWith entry.1.op _
  rw [map_map, map_flatten, ← reduceWith_flatten entry.1.assoc, map_map]
  exact congrArg _ (map_congr_left fun piece _ => hposition piece)

end Aggregates

/-! ## Groupings -/

section Groupings

variable {α K S T : Type} [DecidableEq K] {key : α → K}

/-- The rows of a key. -/
def ofKey (key : α → K) (rows : List α) (k : K) : List α := rows.filter fun row => key row = k

/-- **A grouping of rows**: every key once, with the reduction of its rows. -/
structure GroupsOf (key : α → K) (reduce : List α → S) (rows : List α) (groups : List (K × S)) :
    Prop where
  nodup : (groups.map Prod.fst).Nodup
  mem_iff : ∀ group, group ∈ groups ↔
    group.1 ∈ rows.map key ∧ group.2 = reduce (ofKey key rows group.1)

variable {reduce : List α → S} {rows rows' : List α} {groups groups' : List (K × S)}

theorem mem_ofKey {k : K} {row : α} : row ∈ ofKey key rows k ↔ row ∈ rows ∧ key row = k := by
  rw [ofKey, mem_filter, decide_eq_true_eq]

theorem ofKey_append (k : K) :
    ofKey key (rows ++ rows') k = ofKey key rows k ++ ofKey key rows' k :=
  filter_append ..

theorem ofKey_perm (h : rows.Perm rows') (k : K) : (ofKey key rows k).Perm (ofKey key rows' k) :=
  h.filter _

theorem ofKey_eq_nil {k : K} (h : k ∉ rows.map key) : ofKey key rows k = [] :=
  filter_eq_nil_iff.mpr fun row hrow hk =>
    h (mem_map.mpr ⟨row, hrow, of_decide_eq_true hk⟩)

theorem GroupsOf.mem_keys (h : GroupsOf key reduce rows groups) (k : K) :
    k ∈ groups.map Prod.fst ↔ k ∈ rows.map key := by
  constructor
  · intro hk
    obtain ⟨group, hgroup, rfl⟩ := mem_map.mp hk
    exact ((h.mem_iff group).mp hgroup).1
  · intro hk
    exact mem_map.mpr ⟨(k, reduce (ofKey key rows k)), (h.mem_iff _).mpr ⟨hk, rfl⟩, rfl⟩

theorem groupsOf_keys {keys : List K} (hnodup : keys.Nodup)
    (hkeys : ∀ k, k ∈ keys ↔ k ∈ rows.map key) :
    GroupsOf key reduce rows (keys.map fun k => (k, reduce (ofKey key rows k))) := by
  refine ⟨by rwa [map_map, show (Prod.fst ∘ fun k => (k, reduce (ofKey key rows k))) = id from
    rfl, map_id], fun group => ?_⟩
  rw [← hkeys]
  constructor
  · intro hgroup
    obtain ⟨k, hk, rfl⟩ := mem_map.mp hgroup
    exact ⟨hk, rfl⟩
  · rintro ⟨hk, hvalue⟩
    exact mem_map.mpr ⟨group.1, hk, Prod.ext rfl hvalue.symm⟩

theorem GroupsOf.perm (hreduce : ∀ a b, a.Perm b → reduce a = reduce b)
    (h : GroupsOf key reduce rows groups) (h' : GroupsOf key reduce rows' groups')
    (hrows : rows.Perm rows') : groups.Perm groups' := by
  refine (perm_ext_iff_of_nodup h.nodup.of_map h'.nodup.of_map).mpr fun group => ?_
  rw [h.mem_iff, h'.mem_iff, (hrows.map key).mem_iff, hreduce _ _ (ofKey_perm hrows _)]

theorem GroupsOf.ofKey_fst (h : GroupsOf key reduce rows groups) (k : K) :
    ofKey Prod.fst groups k =
      if ofKey key rows k = [] then [] else [(k, reduce (ofKey key rows k))] := by
  have hempty : ofKey key rows k = [] ↔ k ∉ groups.map Prod.fst := by
    rw [h.mem_keys]
    refine ⟨fun hnil hk => ?_, ofKey_eq_nil⟩
    obtain ⟨row, hrow, rfl⟩ := mem_map.mp hk
    exact ne_nil_of_mem (mem_ofKey.mpr ⟨hrow, rfl⟩) hnil
  split
  · next hnil => exact ofKey_eq_nil (hempty.mp hnil)
  · next hsome =>
    have hk : k ∈ rows.map key := by
      rw [← h.mem_keys]
      exact not_not.mp (hempty.not.mp hsome)
    have hmem : ∀ group, group ∈ ofKey Prod.fst groups k ↔
        group ∈ [(k, reduce (ofKey key rows k))] := by
      intro group
      rw [mem_ofKey, h.mem_iff, mem_singleton]
      constructor
      · rintro ⟨⟨-, hvalue⟩, rfl⟩
        exact Prod.ext rfl hvalue
      · rintro rfl
        exact ⟨⟨hk, rfl⟩, rfl⟩
    exact perm_singleton.mp ((perm_ext_iff_of_nodup (h.nodup.of_map.filter _)
      (nodup_singleton _)).mpr hmem)

variable {parts : List (List α)}

theorem GroupsOf.flatten {groups : List (List (K × S))}
    (h : List.Forall₂ (GroupsOf key reduce) parts groups)
    (hdisjoint : parts.Pairwise fun part part' => List.Disjoint (part.map key) (part'.map key)) :
    GroupsOf key reduce parts.flatten groups.flatten := by
  induction h with
  | nil => exact ⟨nodup_nil, by simp⟩
  | @cons part group parts groups hpart hparts ih =>
    obtain ⟨hfirst, hrest⟩ := pairwise_cons.mp hdisjoint
    have ih := ih hrest
    have hapart : List.Disjoint (part.map key) (parts.flatten.map key) := by
      intro k hk hk'
      obtain ⟨row, hrow, rfl⟩ := mem_map.mp hk'
      obtain ⟨part', hpart', hrow⟩ := mem_flatten.mp hrow
      exact hfirst part' hpart' hk (mem_map_of_mem hrow)
    rw [flatten_cons, flatten_cons]
    refine ⟨?_, fun entry => ?_⟩
    · rw [map_append, nodup_append]
      refine ⟨hpart.nodup, ih.nodup, fun a ha b hb hab => ?_⟩
      exact hapart ((hpart.mem_keys a).mp ha) (hab ▸ (ih.mem_keys b).mp hb)
    · rw [mem_append, hpart.mem_iff, ih.mem_iff, map_append, mem_append,
        ofKey_append]
      constructor
      · rintro (⟨hk, hvalue⟩ | ⟨hk, hvalue⟩)
        · exact ⟨.inl hk, by rw [ofKey_eq_nil fun hk' => hapart hk hk', append_nil, hvalue]⟩
        · exact ⟨.inr hk, by rw [ofKey_eq_nil fun hk' => hapart hk' hk, nil_append, hvalue]⟩
      · rintro ⟨hk | hk, hvalue⟩
        · exact .inl ⟨hk, by
            rwa [ofKey_eq_nil fun hk' => hapart hk hk', append_nil] at hvalue⟩
        · exact .inr ⟨hk, by
            rwa [ofKey_eq_nil fun hk' => hapart hk' hk, nil_append] at hvalue⟩

/-- The rows of a key, part by part, without the parts that have none. -/
def piecesOf (key : α → K) (parts : List (List α)) (k : K) : List (List α) :=
  (parts.map fun part => ofKey key part k).filter fun piece => !piece.isEmpty

theorem piecesOf_cons (part : List α) (parts : List (List α)) (k : K) :
    piecesOf key (part :: parts) k =
      if ofKey key part k = [] then piecesOf key parts k
      else ofKey key part k :: piecesOf key parts k := by
  rw [piecesOf, map_cons, filter_cons]
  cases ofKey key part k <;> rfl

theorem flatten_piecesOf (parts : List (List α)) (k : K) :
    (piecesOf key parts k).flatten = ofKey key parts.flatten k := by
  rw [piecesOf, flatten_filter_not_isEmpty, ofKey, filter_flatten]
  rfl

variable {states : List (List (K × S))}

theorem ofKey_states (h : List.Forall₂ (GroupsOf key reduce) parts states) (k : K) :
    (ofKey Prod.fst states.flatten k).map Prod.snd = (piecesOf key parts k).map reduce := by
  induction h with
  | nil => rfl
  | @cons part state parts states hpart hparts ih =>
    rw [flatten_cons, ofKey_append, map_append, ih, hpart.ofKey_fst, piecesOf_cons]
    split
    · rfl
    · rfl

theorem mem_keys_states (h : List.Forall₂ (GroupsOf key reduce) parts states) (k : K) :
    k ∈ states.flatten.map Prod.fst ↔ k ∈ parts.flatten.map key := by
  induction h with
  | nil => rfl
  | cons hpart _ ih =>
    rw [flatten_cons, flatten_cons, map_append, map_append, mem_append,
      mem_append, ih, hpart.mem_keys]

/-- **Two phases are one**: the parts are grouped, the results moved around, and the results
of one key combined. -/
theorem GroupsOf.two_phase {state : List α → S} {merge : List S → T} {reduce : List α → T}
    (hmerge : ∀ pieces : List (List α), merge (pieces.map state) = reduce pieces.flatten)
    (hperm : ∀ a b, a.Perm b → merge a = merge b)
    (hstates : List.Forall₂ (GroupsOf key state) parts states)
    {exchanged : List (K × S)} (hexchanged : exchanged.Perm states.flatten)
    {groups : List (K × T)}
    (hgroups : GroupsOf Prod.fst (fun entries => merge (entries.map Prod.snd)) exchanged groups) :
    GroupsOf key reduce parts.flatten groups := by
  refine ⟨hgroups.nodup, fun group => ?_⟩
  have hvalue : merge ((ofKey Prod.fst exchanged group.1).map Prod.snd) =
      reduce (ofKey key parts.flatten group.1) := by
    rw [hperm _ _ ((ofKey_perm hexchanged _).map Prod.snd), ofKey_states hstates, hmerge,
      flatten_piecesOf]
  rw [hgroups.mem_iff, (hexchanged.map Prod.fst).mem_iff, mem_keys_states hstates, hvalue]

end Groupings

end TwoPhase

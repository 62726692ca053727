import OxideLake.Compute.JoinRun
import OxideLake.Device.JoinTableLimits

/-!
# The reference hash join

`hash_join_probe` on a table that `JoinTable::build` made: the table groups the build rows by key
in one flat array, and probing it with the rows of the other side is the nested-loop join, in the
order of its two loops.
-/

namespace OxideLake

open List EquiJoin Partial OperatorState Kernels JoinTable

variable {left right : RecordBatch} {leftKey : Nat} {pairs : List (Nat × Nat)}
  {projection : Option (List Nat)} {table : JoinTable}

theorem Kernels.joinColumn_eq_ok {c : Nat}
    (hpairs : ∀ pair ∈ pairs, pair.1 < left.numRows ∧ pair.2 < right.numRows)
    (hc : c < left.numColumns + right.numColumns) :
    ∃ entry, joinColumn left right pairs c = .ok entry ∧
      FieldFits pairs.length entry.1 entry.2 := by
  have hlt : c < (left.entries ++ right.entries).length := by rwa [length_append]
  have hentry := getElem?_eq_getElem hlt
  generalize (left.entries ++ right.entries)[c] = entry at hentry
  have htake : ∃ out, entry.2.take (if c < left.numColumns then pairs.map fun pair => some pair.1
      else pairs.map fun pair => some pair.2) = .ok out ∧
        FieldFits pairs.length entry.1 out := by
    split
    · next hleft =>
      rw [getElem?_append_left hleft] at hentry
      have htaken := (left.fits entry (mem_of_getElem? hentry)).take
        (forall_mem_map.mpr fun pair hpair => (hpairs pair hpair).1)
      rwa [map_map, length_map] at htaken
    · next hright =>
      rw [getElem?_append_right (not_lt.mp hright)] at hentry
      have htaken := (right.fits entry (mem_of_getElem? hentry)).take
        (forall_mem_map.mpr fun pair hpair => (hpairs pair hpair).2)
      rwa [map_map, length_map] at htaken
  obtain ⟨out, hout, hfits⟩ := htake
  refine ⟨(entry.1, out), ?_, hfits⟩
  rw [joinColumn, hentry]
  show (entry.2.take _ >>= fun array => Except.ok (entry.1, array)) = _
  rw [hout]
  rfl

theorem Kernels.hashJoinProbe_eq_tryNew {leftKeys rightKeys : Int64Array}
    (hleft : int64Column left leftKey "left join key" = .ok leftKeys)
    (hright : rightKeys.length = right.numRows)
    (hmatch : ∀ key, table.matching key = rowsWithKey rightKeys key)
    (hpairs : probePairs table 0 leftKeys = .ok pairs)
    (hinside : ∀ c ∈ selectedColumns left right projection,
      c < left.numColumns + right.numColumns) :
    ∃ entries, hashJoinProbe left leftKey right table projection =
        RecordBatch.tryNew ⟨entries.map Prod.fst, []⟩ (entries.map Prod.snd) ∧
      List.Forall₂ (fun c entry =>
          joinedEntry left right (nestedLoop leftKeys rightKeys) c = some entry ∧
          FieldFits (nestedLoop leftKeys rightKeys).length entry.1 entry.2)
        (selectedColumns left right projection) entries := by
  obtain ⟨-, hleftLen, -⟩ := int64Column_ok hleft
  obtain rfl : pairs = nestedLoop leftKeys rightKeys := probePairs_eq hmatch hpairs
  -- every pair names rows that exist, so every column can be gathered
  have hexist : ∀ pair ∈ nestedLoop leftKeys rightKeys,
      pair.1 < left.numRows ∧ pair.2 < right.numRows := by
    intro pair hpair
    obtain ⟨key, hl, hr⟩ := ((pairs_nestedLoop leftKeys rightKeys).mem_iff _ _).mp hpair
    exact ⟨hleftLen ▸ (List.getElem?_eq_some_iff.mp hl).1,
      hright ▸ (List.getElem?_eq_some_iff.mp hr).1⟩
  have hcolumn : ∀ c ∈ selectedColumns left right projection, ∃ entry,
      joinColumn left right (nestedLoop leftKeys rightKeys) c = .ok entry ∧
        joinedEntry left right (nestedLoop leftKeys rightKeys) c = some entry ∧
        FieldFits (nestedLoop leftKeys rightKeys).length entry.1 entry.2 := by
    intro c hc
    obtain ⟨entry, hentry, hfits⟩ := joinColumn_eq_ok hexist (hinside c hc)
    exact ⟨entry, hentry, joinColumn_ok hentry, hfits⟩
  obtain ⟨entries, hentries, hcolumns⟩ := mapM_ok_forall₂ hcolumn
  refine ⟨entries, ?_, hcolumns⟩
  rw [hashJoinProbe, hleft, ok_bind, hpairs, ok_bind, hentries, ok_bind]

theorem Kernels.hashJoinProbe_of_tryNew {entries : List (Field × Column)}
    (hprobe : hashJoinProbe left leftKey right table projection =
      RecordBatch.tryNew ⟨entries.map Prod.fst, []⟩ (entries.map Prod.snd))
    (hentries : List.Forall₂ (fun c entry => joinedEntry left right pairs c = some entry ∧
      FieldFits pairs.length entry.1 entry.2) (selectedColumns left right projection) entries)
    (hne : selectedColumns left right projection ≠ []) (hfew : pairs.length < 2 ^ 63) :
    ∃ out, hashJoinProbe left leftKey right table projection = .ok out ∧ out.schema.metadata = [] ∧
      JoinsAlong left right (selectedColumns left right projection) pairs out := by
  have hfits : ∀ entry ∈ entries, FieldFits pairs.length entry.1 entry.2 := by
    intro entry hentry
    obtain ⟨c, -, -, hfits⟩ := forall₂_exists_left hentries hentry
    exact hfits
  have hsome : entries ≠ [] := by
    rintro rfl
    exact hne (length_eq_zero_iff.mp hentries.length_eq)
  refine ⟨⟨[], entries, _, hfits, hfew⟩, ?_, rfl, joinsAlong_of_entries ?_ rfl⟩
  · rw [hprobe, RecordBatch.tryNew_eq_ok [] hsome hfits hfew]
  · exact mapM_eq_some_iff.mpr (hentries.imp fun _ _ => And.left)

variable {order : MapOrder}

/-- **The reference probe** on typed keys and existing columns, for a result that fits an
Arrow array: a batch, unless there are more than `2 ^ 32` probe rows. -/
theorem Kernels.hashJoinProbe_cases {build : JoinBuild order}
    {leftKeys rightKeys : Int64Array}
    (hleft : int64Column left leftKey "left join key" = .ok leftKeys)
    (hright : int64Column build.batch build.key "build join key" = .ok rightKeys)
    (hne : selectedColumns left build.batch projection ≠ [])
    (hinside : ∀ c ∈ selectedColumns left build.batch projection,
      c < left.numColumns + build.batch.numColumns)
    (hfew : (nestedLoop leftKeys rightKeys).length < 2 ^ 63) :
    (∃ out, hashJoinProbe left leftKey build.batch build.table projection = .ok out ∧
      out.schema.metadata = []) ∨
      (∃ n key, leftKeys[n]? = some (some key) ∧ some key ∈ rightKeys ∧ 2 ^ 32 ≤ n) ∧
        hashJoinProbe left leftKey build.batch build.table projection = .error rowsExceed := by
  obtain ⟨rightKeys', hright', hmatch⟩ := build_matching build.built
  rw [hright] at hright'
  cases hright'
  rcases probePairs_cases build.table leftKeys 0 with
    ⟨pairs, hpairs⟩ | ⟨⟨n, key, hkey, hmatches, hn⟩, herror⟩
  · obtain ⟨entries, hprobe, hentries⟩ := hashJoinProbe_eq_tryNew hleft
      (int64Column_ok hright).2.1 hmatch hpairs hinside
    obtain ⟨out, hout, hmetadata, -⟩ := hashJoinProbe_of_tryNew hprobe hentries hne hfew
    exact .inl ⟨out, hout, hmetadata⟩
  · refine .inr ⟨⟨n, key, hkey, ?_, by omega⟩, by
      rw [hashJoinProbe, hleft, ok_bind, herror]
      rfl⟩
    rw [hmatch] at hmatches
    obtain ⟨row, hrow⟩ := exists_mem_of_ne_nil _ hmatches
    exact mem_of_getElem? (mem_rowsWithKey.mp hrow)

/-! ## The nested-loop join -/

/-- The ranges of a table tile its row array: every slot is in the range of exactly one key, and the
end of a range, a `u32`, is inside the array. -/
structure JoinTable.Tiles (table : JoinTable) : Prop where
  distinct : (table.ranges.map Prod.fst).Nodup
  inside : ∀ range ∈ table.ranges,
    range.2.1 + range.2.2 ≤ table.rows.length ∧ range.2.1 + range.2.2 < 2 ^ 32
  covered : ∀ slot < table.rows.length, ∃ range ∈ table.ranges,
    range.2.1 ≤ slot ∧ slot < range.2.1 + range.2.2
  apart : ∀ range ∈ table.ranges, ∀ range' ∈ table.ranges, range ≠ range' →
    range.2.1 + range.2.2 ≤ range'.2.1 ∨ range'.2.1 + range'.2.2 ≤ range.2.1

theorem JoinTable.ofKeys_tiles {order : MapOrder} {keys : Int64Array}
    (h : ofKeys order keys = .ok table) : table.Tiles := by
  obtain ⟨total, hassign, hrows⟩ := ofKeys_ok h
  have hranges := ranges_of_assignRanges hassign
  have hlength : table.rows.length = total := by
    rw [scatterRows_length hrows, length_replicate]
  refine ⟨hranges.nodup, fun range hrange => ?_, fun slot hslot => ?_, ?_⟩
  · have hinside := hranges.inside range hrange
    have hlt := hranges.total_lt
    exact ⟨hlength ▸ hinside, by omega⟩
  · exact assignRanges_covers hassign (Nat.zero_le slot) (hlength ▸ hslot)
  · exact fun range hrange range' hrange' hne => hranges.disjoint hrange hrange' hne

/-- **The reference join is the nested-loop join.**  For sides of at most `u32::MAX` rows and every
order of the hash map, the build returns a table whose ranges tile its row array, and a probe lists
the pairs of rows with equal keys in the order of the two loops and hands `RecordBatch::try_new` the
projected columns along these pairs, which fit their fields.  The batch it returns, if one can have
so many rows, is the join along the pairs. -/
theorem hashJoinProbe_nestedLoop (order : MapOrder) {left right : RecordBatch}
    {leftKey rightKey : Nat} {projection : Option (List Nat)} {leftKeys rightKeys : Int64Array}
    (hleft : int64Column left leftKey "left join key" = .ok leftKeys)
    (hright : int64Column right rightKey "build join key" = .ok rightKeys)
    (hleftRows : left.numRows < 2 ^ 32) (hrightRows : right.numRows < 2 ^ 32)
    (hne : selectedColumns left right projection ≠ [])
    (hinside : ∀ c ∈ selectedColumns left right projection,
      c < left.numColumns + right.numColumns) :
    ∃ table pairs entries, build order right rightKey = .ok table ∧ table.Tiles ∧
      probePairs table 0 leftKeys = .ok pairs ∧
      (∀ i j, (i, j) ∈ pairs ↔
        ∃ key, leftKeys[i]? = some (some key) ∧ rightKeys[j]? = some (some key)) ∧
      (pairs.Pairwise fun a b => a.1 < b.1 ∨ a.1 = b.1 ∧ a.2 < b.2) ∧
      hashJoinProbe left leftKey right table projection =
        RecordBatch.tryNew ⟨entries.map Prod.fst, []⟩ (entries.map Prod.snd) ∧
      List.Forall₂ (fun c entry => joinedEntry left right pairs c = some entry ∧
          FieldFits pairs.length entry.1 entry.2)
        (selectedColumns left right projection) entries ∧
      (pairs.length < 2 ^ 63 → ∃ out,
        hashJoinProbe left leftKey right table projection = .ok out ∧
        JoinsAlong left right (selectedColumns left right projection) pairs out) := by
  obtain ⟨-, hleftLen, -⟩ := int64Column_ok hleft
  obtain ⟨-, hrightLen, -⟩ := int64Column_ok hright
  obtain ⟨table, htable⟩ := ofKeys_succeeds order (hrightLen.symm ▸ hrightRows)
  obtain ⟨pairs, hpairs⟩ := probePairs_succeeds table
    (show 0 + leftKeys.length ≤ 2 ^ 32 by omega)
  have hmatch := ofKeys_matching htable
  obtain ⟨entries, hprobe, hentries⟩ := Kernels.hashJoinProbe_eq_tryNew hleft hrightLen
    hmatch hpairs hinside
  have hnested : pairs = nestedLoop leftKeys rightKeys := probePairs_eq hmatch hpairs
  rw [← hnested] at hentries
  refine ⟨table, pairs, entries, ?_, ofKeys_tiles htable, hpairs, ?_, ?_, hprobe, hentries,
    fun hfew => ?_⟩
  · rw [build, hright, ok_bind, htable]
  · rw [hnested]
    exact (pairs_nestedLoop leftKeys rightKeys).mem_iff
  · rw [hnested]
    exact pairwise_nestedLoopFrom leftKeys rightKeys 0
  · obtain ⟨out, hout, -, hjoins⟩ := Kernels.hashJoinProbe_of_tryNew hprobe hentries hne hfew
    exact ⟨out, hout, hjoins⟩

/-- A join of a batch with itself, the map handing out the key 3 last, and one column twice. -/
theorem hashJoinProbe_nestedLoop_fewKeys : ∃ table out,
    build (lastOrder 3) fewKeys 0 = .ok table ∧ table.Tiles ∧
    hashJoinProbe fewKeys 0 fewKeys table (some [1, 0, 0]) = .ok out ∧
    JoinsAlong fewKeys fewKeys [1, 0, 0]
      [(0, 0), (0, 3), (2, 2), (3, 0), (3, 3)] out := by
  obtain ⟨table, pairs, -, htable, htiles, hpairs, -, -, -, -, hout⟩ :=
    hashJoinProbe_nestedLoop (lastOrder 3)
      (show int64Column fewKeys 0 "left join key" = .ok _ from rfl)
      (show int64Column fewKeys 0 "build join key" = .ok _ from rfl)
      (by decide) (by decide)
      (show selectedColumns fewKeys fewKeys (some [1, 0, 0]) ≠ [] by decide)
      (by decide)
  have hbuilt : build (lastOrder 3) fewKeys 0 =
      .ok ⟨[(9, 0, 1), (3, 1, 2)], [2, 0, 3], by decide⟩ := rfl
  cases htable.symm.trans hbuilt
  cases hpairs
  obtain ⟨out, hprobe, hjoins⟩ := hout (by decide)
  exact ⟨_, out, htable, htiles, hprobe, hjoins⟩

end OxideLake

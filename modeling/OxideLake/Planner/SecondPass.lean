import OxideLake.Planner.Totality

/-!
# Placement, once and twice

`HardwarePlacementRule` runs last, after `VectorDistancePlacementRule`, and DataFusion checks after
each rule that the schema is still the same.  `optimize_keeps` says that this check passes for
every plan the rule returns, and `optimize_idempotent` that neither rule has anything left to do
on it: where a node was kept, both decline it again.
-/

namespace OxideLake

open Partial

variable {target : BackendKind} {plan plan' source left right : Plan}
  {f g : Plan → DFResult Plan} {nodes : ForeignNodes}

/-- Every node is one that the node function returns as it is. -/
inductive Plan.Fixed (f : Plan → DFResult Plan) : Plan → Prop where
  | unary {op : UnaryExec} {input : Plan} (hinput : input.Fixed f)
      (hop : f (.unary op input) = .ok (.unary op input)) : Plan.Fixed f (.unary op input)
  | binary {op : BinaryExec} {left right : Plan} (hleft : left.Fixed f) (hright : right.Fixed f)
      (hop : f (.binary op left right) = .ok (.binary op left right)) :
      Plan.Fixed f (.binary op left right)
  | foreign {op : ForeignExec} {children : List Plan}
      (hchildren : ∀ child ∈ children, child.Fixed f)
      (hop : f (.foreign op children) = .ok (.foreign op children)) :
      Plan.Fixed f (.foreign op children)

namespace Plan.Fixed

theorem input {op : UnaryExec} (h : (Plan.unary op source).Fixed f) : source.Fixed f := by
  cases h with
  | unary hinput _ => exact hinput

theorem mono (h : plan.Fixed f) (hfg : ∀ plan, f plan = .ok plan → g plan = .ok plan) :
    plan.Fixed g := by
  induction h with
  | unary _ hop ih => exact .unary ih (hfg _ hop)
  | binary _ _ hop ihLeft ihRight => exact .binary ihLeft ihRight (hfg _ hop)
  | foreign _ hop ih => exact .foreign ih (hfg _ hop)

/-- **A pass over a fixed plan** returns it. -/
theorem transformUp_eq (h : plan.Fixed f) (hwf : plan.WellFormed) :
    transformUp nodes f plan = .ok plan := by
  induction h with
  | unary _ hop ih =>
    obtain ⟨hinput, -, hbuilt⟩ := hwf.input
    rw [transformUp, ih hinput, ok_bind, hbuilt, ok_bind, hop]
  | binary _ _ hop ihLeft ihRight =>
    obtain ⟨hleft, hright, -, hbuilt⟩ := hwf.inputs
    rw [transformUp, ihLeft hleft, ok_bind, ihRight hright, ok_bind, hbuilt, ok_bind, hop]
  | foreign _ hop ih =>
    cases hwf with
    | foreign hchildren =>
      rw [transformUp, transformAll_eq_mapM,
        mapM_eq_ok_map fun child hchild => ih child hchild (hchildren child hchild),
        List.map_id', ok_bind, nodes.same, ok_bind, hop]

end Plan.Fixed

/-! ## One node -/

theorem stripSort_fixed (h : plan.Fixed f) : (stripSort plan).Fixed f := by
  unfold stripSort
  split
  · split
    · exact h.input
    · exact h
  · exact h

theorem lookThrough_fixed (h : plan.Fixed f) : (lookThrough plan).Fixed f := by
  fun_induction lookThrough plan with
  | case1 _ _ ih | case2 _ ih => exact ih h.input
  | case3 => exact h

theorem aggregateSource_fixed {agg half : AggregateExec}
    (hsource : aggregateSource agg plan = some (half, source)) (h : plan.Fixed (rewrite target)) :
    (coalesced source).Fixed (rewrite target) := by
  have hfixed : source.Fixed (rewrite target) := by
    rcases aggregateSource_eq_some hsource with ⟨-, rfl, -⟩ | ⟨hlook, -⟩
    · exact h
    · exact (hlook ▸ lookThrough_fixed h).input
  unfold coalesced
  split
  · exact .unary hfixed rfl
  · exact hfixed

/-- **Step lemma.**  What becomes of a node over fixed inputs: kept, it is declined again, and a
`Gpu*Exec` stands over parts of these inputs. -/
theorem rewrite_unary_fixed {op : UnaryExec} (hinput : source.Fixed (rewrite target))
    (h : rewrite target (.unary op source) = .ok plan') : plan'.Fixed (rewrite target) := by
  cases rewrites_of_rewrite h with
  | kept => exact .unary hinput h
  | filter _ => exact .unary hinput rfl
  | fused _ => exact .unary hinput.input rfl
  | distance _ => exact .unary hinput rfl
  | aggregate hsource _ _ _ => exact .unary (aggregateSource_fixed hsource hinput) rfl

theorem rewrite_binary_fixed {op : BinaryExec} (hleft : left.Fixed (rewrite target))
    (hright : right.Fixed (rewrite target))
    (h : rewrite target (.binary op left right) = .ok plan') : plan'.Fixed (rewrite target) := by
  cases rewrites_of_rewrite h with
  | kept => exact .binary hleft hright h
  | hashJoin _ => exact .binary hright hleft rfl
  | sortMergeJoin _ => exact .binary (stripSort_fixed hleft) (stripSort_fixed hright) rfl

theorem rewriteDistance_of_rewrite (plan : Plan) (h : rewrite target plan = .ok plan) :
    rewriteDistance target plan = .ok plan := by
  unfold rewriteDistance
  split
  · obtain ⟨_ | fused, hfused, hplan⟩ := bind_eq_ok_iff.mp h
    · exact hplan
    · obtain ⟨filter, source, exec, -, -, rfl⟩ := fuseInto_eq_some hfused
      cases hplan
  · rfl

/-! ## Whole plans -/

/-- **Run lemma.**  The rule returns a plan it has nothing to do on. -/
theorem transformUp_fixed (hwf : plan.WellFormed)
    (h : transformUp nodes (rewrite target) plan = .ok plan') : plan'.Fixed (rewrite target) := by
  let R (_ placed : Plan) : Prop := placed.Fixed (rewrite target)
  refine transformUp_induction (R := R) ?_ ?_ ?_ hwf h
  · exact fun _ _ hinput hrewrite => rewrite_unary_fixed hinput hrewrite
  · exact fun _ _ _ hleft hright hrewrite => rewrite_binary_fixed hleft hright hrewrite
  · intro op children children' hchildren
    refine .foreign (fun child' hchild' => ?_) rfl
    obtain ⟨child, -, hfixed⟩ := forall₂_exists_left hchildren hchild'
    exact hfixed

/-- **The schema check after the rule passes**, and the plan is still well formed. -/
theorem optimize_keeps (hwf : plan.WellFormed) (h : optimize nodes target plan = .ok plan') :
    plan'.WellFormed ∧ plan'.schema = plan.schema := by
  unfold optimize at h
  split at h
  · exact (places_of_wellFormed nodes target hwf).keeps h
  · cases h
    exact ⟨hwf, rfl⟩

/-- **A second run changes nothing**, and neither does a run of the distance rule. -/
theorem optimize_idempotent (hwf : plan.WellFormed) (h : optimize nodes target plan = .ok plan') :
    optimize nodes target plan' = .ok plan' ∧ optimizeDistance nodes target plan' = .ok plan' := by
  unfold optimize optimizeDistance at *
  split at h
  · next hgpu =>
    have hfixed := transformUp_fixed hwf h
    have hwf' := ((places_of_wellFormed nodes target hwf).keeps h).1
    rw [if_pos hgpu, if_pos hgpu]
    exact ⟨hfixed.transformUp_eq hwf',
      (hfixed.mono rewriteDistance_of_rewrite).transformUp_eq hwf'⟩
  · next hcpu => exact ⟨if_neg hcpu, if_neg hcpu⟩

theorem optimize_keeps_select :
    ∃ plan', optimize openNodes .cuda selectPlan = .ok plan' ∧
      plan'.schema = selectPlan.schema := by
  refine ⟨_, rfl, ?_⟩
  have h : optimize openNodes .cuda selectPlan = .ok _ := rfl
  exact (optimize_keeps selectPlan_wellFormed h).2

theorem optimize_idempotent_select :
    ∃ plan', optimize openNodes .cuda selectPlan = .ok plan' ∧
      optimize openNodes .cuda plan' = .ok plan' :=
  ⟨_, rfl, (optimize_idempotent selectPlan_wellFormed rfl).1⟩

end OxideLake

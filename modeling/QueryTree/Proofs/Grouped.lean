import QueryTree.Relation.Bind

/-!
# Binding groups, one step at a time

Names for the selects that grouping and merging put together, and the steps that end with one of
them.
-/

namespace QueryTree

/-- The rows of `source` whose key is that of the current group. -/
def Select.groupRows (source : Select) (inner : Expr) (scope : ScopeId) : Select :=
  source.filterBy (GroupKey.equality inner (GroupKey.columns inner source.scope scope).2)

/-- `source`, grouped by the key `inner`. -/
def Select.groupedBy (source : Select) (inner : Expr) (scope : ScopeId) : Select :=
  { source.project (.fields (GroupKey.columns inner source.scope scope).1) with
    group :=
      some (.keys (GroupKey.terms (GroupKey.columns inner source.scope scope).1 source.scope))
    orderings := [] }

/-- The select over the groups of `source`, with what it remembers of `source`. -/
def Select.groups (source : Select) (inner : Expr) (scope : ScopeId) : Select :=
  { (Select.ofSelect scope (source.groupedBy inner scope)).project
      (.fields [⟨(GroupKey.columns inner source.scope scope).2, some "Key"⟩,
        ⟨.subquery (source.groupRows inner scope), some "Values"⟩]) with
    groupKey := some ⟨inner, (GroupKey.columns inner source.scope scope).2, source,
      .subquery (source.groupRows inner scope)⟩ }

/-- `grouped` with fields for a merged selector. -/
def Select.withMerged (grouped : Select) (scope : ScopeId) (value : Expr) : Select :=
  grouped.project (.fields ((match grouped.projection with
    | .fields fs => fs
    | _ => []) ++ (Binding.readBack scope value).1))

/-- `groups` as it reads a merged selector back from `grouped`. -/
def Select.readingMerged (groups grouped : Select) (value : Expr) : Select :=
  { groups with
    groupKey := none
    source := .subquery (grouped.withMerged groups.scope value)
    element := (grouped.withMerged groups.scope value).projectedType
    projection := .expr (Binding.readBack groups.scope value).2 }

section
variable {bind : Expr → BindM Expr}

/-- `bindGroupBy` binds the key and takes a scope for the groups. -/
theorem Binding.bindGroupBy_eq (source : Select) (key : Expr) :
    Binding.bindGroupBy bind source key =
      Binding.applyLambda bind source "GroupBy" key >>= fun inner =>
        BindM.freshScope >>= fun scope => pure (.select (source.groups inner scope)) := rfl

/-- `bindGroupedProjection` merges a selector into the grouped select, or binds it row by row. -/
theorem Binding.bindGroupedProjection_eq (groups : Select) (key : GroupKey) (selector : Expr) :
    Binding.bindGroupedProjection bind groups key selector =
      BindM.ofExcept (selector.asLambda "Select") >>= fun x =>
        if (GroupUses.of x.2 x.1.name).aggregates == 0 || (GroupUses.of x.2 x.1.name).other then
          bind (x.2.substituteGroup x.1.name key) >>= fun value =>
            pure (.select (Select.project { groups with groupKey := none } (.expr value)))
        else
          x.2.replaceM (Binding.mergeNode bind x.1.name key) >>= fun merged =>
            bind merged >>= fun value =>
              match groups.source with
              | .table _ => throw .ungroupedSource
              | .subquery grouped => pure (.select (groups.readingMerged grouped value)) := rfl

end

end QueryTree

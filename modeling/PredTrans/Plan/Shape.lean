import PredTrans.Plan.Operator

namespace PredTrans.Plan
open List LogicalOperator

/-- The plan and everything below it. -/
def LogicalOperator.subplans : LogicalOperator → List LogicalOperator
  | .leaf op => [.leaf op]
  | .unary op c => .unary op c :: c.subplans
  | .binary op l r => .binary op l r :: (l.subplans ++ r.subplans)

theorem LogicalOperator.self_mem_subplans (p : LogicalOperator) : p ∈ p.subplans := by
  cases p <;> simp [subplans]

/-- What every operator passes to its children holds of everything below it. -/
@[elab_as_elim]
theorem LogicalOperator.subplans_induction {P : LogicalOperator → Prop} {a b : LogicalOperator}
    (h : a ∈ b.subplans) (hb : P b) (hu : ∀ {op c}, P (.unary op c) → P c)
    (hlr : ∀ {op l r}, P (.binary op l r) → P l ∧ P r) : P a := by
  induction b with
  | leaf op => exact mem_singleton.mp h ▸ hb
  | unary op c ih =>
    rcases mem_cons.mp h with rfl | hc
    · exact hb
    · exact ih hc (hu hb)
  | binary op l r ihl ihr =>
    rcases mem_cons.mp h with rfl | hc
    · exact hb
    · rcases mem_append.mp hc with hl | hr
      · exact ihl hl (hlr hb).1
      · exact ihr hr (hlr hb).2

theorem LogicalOperator.subplans_trans {a b c : LogicalOperator}
    (hab : a ∈ b.subplans) (hbc : b ∈ c.subplans) : a ∈ c.subplans := by
  have hsub : b.subplans ⊆ c.subplans := by
    refine subplans_induction hbc (fun _ => id) ?_ ?_
    · exact fun h _ ha => h (mem_cons_of_mem _ ha)
    · refine fun h => ⟨fun _ ha => h (mem_cons_of_mem _ ?_),fun _ ha => h (mem_cons_of_mem _ ?_)⟩
      · exact mem_append_left _ ha
      · exact mem_append_right _ ha
  exact hsub hab

theorem LogicalOperator.child_mem {p c : LogicalOperator} (h : .unary op c ∈ p.subplans) :
    c ∈ p.subplans := by
  refine subplans_trans ?_ h
  exact mem_cons_of_mem _ c.self_mem_subplans

theorem LogicalOperator.left_mem {p l r : LogicalOperator} (h : .binary op l r ∈ p.subplans) :
    l ∈ p.subplans := by
  refine subplans_trans ?_ h
  exact mem_cons_of_mem _ (mem_append_left _ l.self_mem_subplans)

theorem LogicalOperator.right_mem {p l r : LogicalOperator} (h : .binary op l r ∈ p.subplans) :
    r ∈ p.subplans := by
  refine subplans_trans ?_ h
  exact mem_cons_of_mem _ (mem_append_right _ r.self_mem_subplans)

/-- A plan below another one is the plan itself or has fewer subplans. -/
theorem LogicalOperator.subplans_length_lt {a b : LogicalOperator} (h : a ∈ b.subplans)
    (hne : a ≠ b) : a.subplans.length < b.subplans.length := by
  induction b with
  | leaf op => exact absurd (mem_singleton.mp h) hne
  | unary op c ih =>
    rcases mem_cons.mp h with rfl | hc
    · exact absurd rfl hne
    by_cases he : a = c
    · subst he
      simp [subplans]
    · have := ih hc he
      simp only [subplans,length_cons]
      omega
  | binary op l r ihl ihr =>
    simp only [subplans,length_cons,length_append]
    rcases mem_cons.mp h with rfl | hc
    · exact absurd rfl hne
    rcases mem_append.mp hc with hl | hr
    · by_cases he : a = l
      · subst he
        omega
      · have := ihl hl he
        omega
    · by_cases he : a = r
      · subst he
        omega
      · have := ihr hr he
        omega

theorem LogicalOperator.subplans_antisymm {a b : LogicalOperator} (hab : a ∈ b.subplans)
    (hba : b ∈ a.subplans) : a = b := by
  by_contra hne
  have h1 := subplans_length_lt hab hne
  have h2 := subplans_length_lt hba (Ne.symm hne)
  omega

section TableIndices

/-- The table indices an operator itself gives to output columns. -/
def LeafOp.tableIndices : LeafOp → List Nat
  | .get t _ | .delimGet t _ | .source t _ => [t]
  | .emptyResult bs => (bs.map ColumnBinding.tableIndex).dedup

def UnaryOp.tableIndices : UnaryOp → List Nat
  | .projection t _ => [t]
  | .aggregate g a gs _ _ _ functions => g :: a :: if functions.isEmpty then [] else [gs]
  | .window w _ => [w]
  | .unnest u _ _ => [u]
  | .tableFunction t _ _ => [t]
  | .other _ _ t n => if n = 0 then [] else [t]
  | _ => []

def BinaryOp.tableIndices : BinaryOp → List Nat
  | .comparisonJoin type m _ | .delimJoin type m _ | .anyJoin type m _ =>
    if type = .mark then [m] else []
  | .crossProduct => []
  | .setOperation _ t _ => [t]
  | .other _ _ _ t n => if n = 0 then [] else [t]

def LogicalOperator.tableIndices : LogicalOperator → List Nat
  | .leaf op => op.tableIndices
  | .unary op c => op.tableIndices ++ c.tableIndices
  | .binary op l r => op.tableIndices ++ (l.tableIndices ++ r.tableIndices)

theorem LogicalOperator.tableIndices_subset {a b : LogicalOperator} (h : a ∈ b.subplans) :
    a.tableIndices ⊆ b.tableIndices := by
  refine subplans_induction h (fun _ => id) ?_ ?_
  · exact fun hs _ ht => hs (mem_append_right _ ht)
  · refine fun hs => ⟨fun _ ht => hs (mem_append_right _ ?_),fun _ ht => hs (mem_append_right _ ?_)⟩
    · exact mem_append_left _ ht
    · exact mem_append_right _ ht

theorem mem_generateColumnBindings :
    c ∈ generateColumnBindings t n ↔ c.tableIndex = t ∧ c.columnIndex < n := by
  obtain ⟨ct,ci⟩ := c
  simp only [generateColumnBindings,mem_map,mem_range,ColumnBinding.mk.injEq]
  constructor
  · rintro ⟨i,hi,rfl,rfl⟩
    exact ⟨rfl,hi⟩
  · rintro ⟨rfl,hi⟩
    exact ⟨ci,hi,rfl,rfl⟩

theorem LeafOp.tableIndex_mem {op : LeafOp} (h : c ∈ op.getColumnBindings) :
    c.tableIndex ∈ op.tableIndices := by
  cases op with
  | emptyResult bs => exact mem_dedup.mpr (mem_map_of_mem h)
  | get t n | delimGet t n | source t n =>
    exact mem_singleton.mpr (mem_generateColumnBindings.mp h).1

/-- Every output column of an operator is one of its own or one of its input. -/
theorem UnaryOp.tableIndex_mem {op : UnaryOp} (h : c ∈ op.getColumnBindings child) :
    c.tableIndex ∈ op.tableIndices ∨ c ∈ child := by
  cases op with
  | projection t es => exact .inl (mem_singleton.mpr (mem_generateColumnBindings.mp h).1)
  | aggregate g a gs groups aggregates sets functions =>
    simp only [getColumnBindings,mem_append,mem_generateColumnBindings] at h
    simp only [tableIndices,mem_cons]
    rcases h with (h | h) | h
    · exact .inl (.inl h.1)
    · exact .inl (.inr (.inl h.1))
    · cases functions with
      | nil => simp at h
      | cons f fs => simp [h.1]
  | window w es | unnest u n f =>
    rcases mem_append.mp h with h | h
    · exact .inr h
    · exact .inl (mem_singleton.mpr (mem_generateColumnBindings.mp h).1)
  | tableFunction t n f =>
    exact .inl (mem_singleton.mpr (mem_generateColumnBindings.mp h).1)
  | other id passes t n =>
    rcases mem_append.mp h with h | h
    · cases passes <;> simp_all
    obtain ⟨ht,hn⟩ := mem_generateColumnBindings.mp h
    refine .inl ?_
    simp only [tableIndices]
    rw [if_neg (by omega)]
    exact mem_singleton.mpr ht
  | _ => exact .inr h

theorem joinBindings_cases (h : c ∈ joinBindings type m l r) :
    (type = .mark ∧ c = ⟨m, 0⟩) ∨ c ∈ l ∨ c ∈ r := by
  cases type <;> simp only [joinBindings,mem_append,mem_singleton] at h <;> tauto

theorem BinaryOp.tableIndex_mem {op : BinaryOp} (h : c ∈ op.getColumnBindings l r) :
    c.tableIndex ∈ op.tableIndices ∨ c ∈ l ∨ c ∈ r := by
  have hjoin : ∀ {type m}, c ∈ joinBindings type m l r →
      c.tableIndex ∈ (if type = JoinType.mark then [m] else []) ∨ c ∈ l ∨ c ∈ r := by
    intro type m hc
    rcases joinBindings_cases hc with ⟨rfl,rfl⟩ | hc
    · exact .inl (by simp)
    · exact .inr hc
  cases op with
  | comparisonJoin type m cs | delimJoin type m cs | anyJoin type m e => exact hjoin h
  | crossProduct => exact .inr (mem_append.mp h)
  | setOperation kind t n =>
    exact .inl (mem_singleton.mpr (mem_generateColumnBindings.mp h).1)
  | other id pl pr t n =>
    simp only [getColumnBindings,mem_append] at h
    rcases h with (h | h) | h
    · cases pl <;> simp_all
    · cases pr <;> simp_all
    obtain ⟨ht,hn⟩ := mem_generateColumnBindings.mp h
    refine .inl ?_
    simp only [tableIndices]
    rw [if_neg (by omega)]
    exact mem_singleton.mpr ht

theorem LogicalOperator.tableIndex_mem {p : LogicalOperator} (h : c ∈ p.getColumnBindings) :
    c.tableIndex ∈ p.tableIndices := by
  induction p with
  | leaf op => exact op.tableIndex_mem h
  | unary op child ih =>
    rcases op.tableIndex_mem h with h | h
    · exact mem_append_left _ h
    · exact mem_append_right _ (ih h)
  | binary op l r ihl ihr =>
    rcases op.tableIndex_mem h with h | h | h
    · exact mem_append_left _ h
    · exact mem_append_right _ (mem_append_left _ (ihl h))
    · exact mem_append_right _ (mem_append_right _ (ihr h))

end TableIndices

section WellFormed

/-- The column references an operator hands on or joins by exist in its input. -/
def UnaryOp.inScope (child : List ColumnBinding) : UnaryOp → Prop
  | .projection _ es => ∀ b, .boundColumnRef b ∈ es → b ∈ child
  | .aggregate _ _ _ groups _ _ _ => ∀ b, .boundColumnRef b ∈ groups → b ∈ child
  | _ => True

def conditionsInScope (l r : List ColumnBinding) (cs : List JoinCondition) : Prop :=
  ∀ c ∈ cs, (∀ b, c.left = .boundColumnRef b → b ∈ l) ∧ (∀ b, c.right = .boundColumnRef b → b ∈ r)

def BinaryOp.inScope (l r : List ColumnBinding) : BinaryOp → Prop
  | .comparisonJoin _ _ cs | .delimJoin _ _ cs => conditionsInScope l r cs
  | _ => True

def LogicalOperator.inScope : LogicalOperator → Prop
  | .leaf _ => True
  | .unary op c => op.inScope c.getColumnBindings ∧ c.inScope
  | .binary op l r => op.inScope l.getColumnBindings r.getColumnBindings ∧ l.inScope ∧ r.inScope

def UnaryOp.isBF : UnaryOp → Bool
  | .createBF _ _ | .useBF _ _ => true
  | _ => false

/-- No filter has been placed in the plan yet. -/
def LogicalOperator.noBF : LogicalOperator → Prop
  | .leaf _ => True
  | .unary op c => op.isBF = false ∧ c.noBF
  | .binary _ l r => l.noBF ∧ r.noBF

/-- A plan as the binder makes it: every table index is given once, column
references point into the operator's input, and only the optimizer places filters. -/
structure LogicalOperator.WellFormed (p : LogicalOperator) : Prop where
  unique : p.tableIndices.Nodup
  inScope : p.inScope
  noBF : p.noBF

variable {op : UnaryOp} {bop : BinaryOp} {c l r : LogicalOperator}

theorem LogicalOperator.WellFormed.child (h : (unary op c).WellFormed) : c.WellFormed :=
  ⟨(nodup_append.mp h.unique).2.1,h.inScope.2,h.noBF.2⟩

theorem LogicalOperator.WellFormed.left (h : (binary bop l r).WellFormed) : l.WellFormed :=
  ⟨(nodup_append.mp (nodup_append.mp h.unique).2.1).1,h.inScope.2.1,h.noBF.1⟩

theorem LogicalOperator.WellFormed.right (h : (binary bop l r).WellFormed) : r.WellFormed :=
  ⟨(nodup_append.mp (nodup_append.mp h.unique).2.1).2.1,h.inScope.2.2,h.noBF.2⟩

theorem LogicalOperator.WellFormed.of_mem {p q : LogicalOperator} (h : p.WellFormed)
    (hq : q ∈ p.subplans) : q.WellFormed :=
  subplans_induction hq h child (fun h => ⟨h.left,h.right⟩)

theorem LogicalOperator.WellFormed.own_not_mem (h : (unary op c).WellFormed)
    (ht : t ∈ op.tableIndices) : t ∉ c.tableIndices :=
  fun hc => (nodup_append.mp h.unique).2.2 t ht t hc rfl

section

variable (h : (binary bop l r).WellFormed)
include h

theorem LogicalOperator.WellFormed.own_not_mem_left (ht : t ∈ bop.tableIndices) :
    t ∉ l.tableIndices :=
  fun hl => (nodup_append.mp h.unique).2.2 t ht t (mem_append_left _ hl) rfl

theorem LogicalOperator.WellFormed.own_not_mem_right (ht : t ∈ bop.tableIndices) :
    t ∉ r.tableIndices :=
  fun hr => (nodup_append.mp h.unique).2.2 t ht t (mem_append_right _ hr) rfl

theorem LogicalOperator.WellFormed.sides_disjoint (hl : t ∈ l.tableIndices) : t ∉ r.tableIndices :=
  fun hr => (nodup_append.mp (nodup_append.mp h.unique).2.1).2.2 t hl t hr rfl

theorem LogicalOperator.WellFormed.columns_disjoint :
    ∀ c ∈ l.getColumnBindings, c ∉ r.getColumnBindings := by
  intro c hl hr
  exact h.sides_disjoint (tableIndex_mem hl) (tableIndex_mem hr)

theorem LogicalOperator.WellFormed.left_columns_not_own :
    ∀ c ∈ l.getColumnBindings, c.tableIndex ∉ bop.tableIndices := by
  intro c hl ht
  exact h.own_not_mem_left ht (tableIndex_mem hl)

theorem LogicalOperator.WellFormed.right_columns_not_own :
    ∀ c ∈ r.getColumnBindings, c.tableIndex ∉ bop.tableIndices := by
  intro c hr ht
  exact h.own_not_mem_right ht (tableIndex_mem hr)

end

end WellFormed

end PredTrans.Plan

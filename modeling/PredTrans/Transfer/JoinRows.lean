import PredTrans.Transfer.NaturalJoin

namespace PredTrans.Transfer
open Plan Library List LogicalOperator

/-! The rows of a natural join are the choices of one row for each relation that
agree on the attributes. -/

variable {A : Type*}

theorem JoinsOn.mem_rows {cmp : ComparisonType} {pairs : List (ColumnBinding × ColumnBinding)}
    (h : JoinsOn cmp op pairs) :
    o ∈ op.rows E left right ls rs ↔ ∃ l ∈ ls, ∃ r ∈ rs,
      (∀ c ∈ pairs, compareValues cmp (l c.1) (r c.2) = .boolean true) ∧ combine left l r = o := by
  cases h with
  | cross => simp [BinaryOp.rows,joinRows]
  | comparison m =>
    have htest : ∀ l r, conditionsTest E.toInterpretation (pairs.map (compareColumns cmp)) l r =
        .boolean true ↔ ∀ c ∈ pairs, compareValues cmp (l c.1) (r c.2) = .boolean true := by
      intro l r
      rw [conditionsTest_eq_true,forall_mem_map]
      rfl
    simp only [BinaryOp.rows,joinRows,mem_flatMap,mem_map,mem_filter,
      decide_eq_true_eq,htest,and_assoc]

/-- The rows of the relation with this table index. -/
def baseRows (E : Execution) (p : LogicalOperator) (x : Nat) : Set Row :=
  {row | ∃ n, (x, n) ∈ nodesOf p ∧ row ∈ n.run E}

/-- One row for each relation, agreeing on the attributes. -/
structure Choice (attr : ColumnBinding → A) (E : Execution) (p : LogicalOperator)
    (ρ : Nat → Row) : Prop where
  mem : ∀ x ∈ p.tableIndices, ρ x ∈ baseRows E p x
  agree : ∀ c ∈ p.getColumnBindings, ∀ c' ∈ p.getColumnBindings,
    c.tableIndex ≠ c'.tableIndex → attr c = attr c' → ρ c.tableIndex c = ρ c'.tableIndex c'

/-- On the compared columns the comparison means equality. -/
def ComparesEqual (attr : ColumnBinding → A) (cmp : ComparisonType) (E : Execution)
    (p : LogicalOperator) : Prop :=
  ∀ c ∈ p.getColumnBindings, ∀ c' ∈ p.getColumnBindings, c.tableIndex ≠ c'.tableIndex →
    attr c = attr c' → ∀ r ∈ baseRows E p c.tableIndex, ∀ r' ∈ baseRows E p c'.tableIndex,
      (compareValues cmp (r c) (r' c') = .boolean true ↔ r c = r' c')

section Sides

variable {attr : ColumnBinding → A} {cmp : ComparisonType} {op : BinaryOp} {E : Execution}
  {pairs : List (ColumnBinding × ColumnBinding)} {l r : LogicalOperator}

variable (h : JoinsOn cmp op pairs)
include h

theorem JoinsOn.mem_columns :
    c ∈ (binary op l r).getColumnBindings ↔
      c ∈ l.getColumnBindings ∨ c ∈ r.getColumnBindings := by
  rw [LogicalOperator.getColumnBindings,h.getColumnBindings,mem_append]

theorem JoinsOn.baseRows_left (x : Nat) : baseRows E l x ⊆ baseRows E (.binary op l r) x := by
  intro row hrow
  obtain ⟨n,hn,hrow⟩ := hrow
  exact ⟨n,h.nodesOf ▸ mem_append_left _ hn,hrow⟩

theorem JoinsOn.baseRows_right (x : Nat) : baseRows E r x ⊆ baseRows E (.binary op l r) x := by
  intro row hrow
  obtain ⟨n,hn,hrow⟩ := hrow
  exact ⟨n,h.nodesOf ▸ mem_append_right _ hn,hrow⟩

theorem ComparesEqual.left (hcmp : ComparesEqual attr cmp E (.binary op l r)) :
    ComparesEqual attr cmp E l := by
  intro c hc c' hc' ht he row hrow row' hrow'
  exact hcmp c (h.mem_columns.mpr (.inl hc)) c' (h.mem_columns.mpr (.inl hc')) ht he
    row (h.baseRows_left _ hrow) row' (h.baseRows_left _ hrow')

theorem ComparesEqual.right (hcmp : ComparesEqual attr cmp E (.binary op l r)) :
    ComparesEqual attr cmp E r := by
  intro c hc c' hc' ht he row hrow row' hrow'
  exact hcmp c (h.mem_columns.mpr (.inr hc)) c' (h.mem_columns.mpr (.inr hc')) ht he
    row (h.baseRows_right _ hrow) row' (h.baseRows_right _ hrow')

theorem JoinsOn.tables :
    (binary op l r).tableIndices = l.tableIndices ++ r.tableIndices := by
  rw [LogicalOperator.tableIndices,h.tableIndices]
  rfl

end Sides

section Relation

variable {attr : ColumnBinding → A} {E : Execution} {q : LogicalOperator} {t : Nat}

theorem table_of_column (ht : q.tableIndices = [t]) (hc : c ∈ q.getColumnBindings) :
    c.tableIndex = t :=
  mem_singleton.mp (ht ▸ tableIndex_mem hc)

theorem choice_of_relation (hn : nodesOf q = [(t, q)]) (ht : q.tableIndices = [t])
    (ho : o ∈ q.run E) : Choice attr E q (fun _ => o) := by
  constructor
  · intro x hx
    rw [ht] at hx
    exact ⟨q,by rw [hn,mem_singleton.mp hx]; exact mem_cons_self,ho⟩
  · intro c hc c' hc' hne
    exact absurd ((table_of_column ht hc).trans (table_of_column ht hc').symm) hne

theorem row_of_relation (hn : nodesOf q = [(t, q)]) (ht : q.tableIndices = [t])
    (hρ : Choice attr E q ρ) :
    ∃ o ∈ q.run E, ∀ c ∈ q.getColumnBindings, o c = ρ c.tableIndex c := by
  obtain ⟨n,hmem,hrow⟩ := hρ.mem t (by simp [ht])
  rw [hn] at hmem
  obtain ⟨-,rfl⟩ := Prod.mk.inj (mem_singleton.mp hmem)
  refine ⟨ρ t,hrow,fun c hc => ?_⟩
  rw [table_of_column ht hc]

end Relation

namespace NaturalJoin

variable {attr : ColumnBinding → A} {cmp : ComparisonType} {p : LogicalOperator} {E : Execution}

variable (h : NaturalJoin attr cmp p) (hnd : p.tableIndices.Nodup)
  (hcmp : ComparesEqual attr cmp E p)
include h hnd hcmp

theorem exists_choice {o : Row} (ho : o ∈ p.run E) :
    ∃ ρ, Choice attr E p ρ ∧ ∀ c ∈ p.getColumnBindings, o c = ρ c.tableIndex c := by
  induction h generalizing o with
  | get t n | filter e es t n => exact ⟨_,choice_of_relation rfl rfl ho,fun _ _ => rfl⟩
  | @join op pairs l r hop _ hpairs hl hr ihl ihr =>
    rw [hop.tables,nodup_append] at hnd
    obtain ⟨lo,hlo,ro,hro,htest,rfl⟩ := hop.mem_rows.mp ho
    obtain ⟨ρl,hρl,hvl⟩ := ihl hnd.1 (hcmp.left hop) hlo
    obtain ⟨ρr,hρr,hvr⟩ := ihr hnd.2.1 (hcmp.right hop) hro
    have hleft : ∀ {c}, c ∈ l.getColumnBindings → c.tableIndex ∈ l.tableIndices :=
      fun hc => tableIndex_mem hc
    have hright : ∀ {c}, c ∈ r.getColumnBindings → c.tableIndex ∉ l.tableIndices :=
      fun hc ht => hnd.2.2 _ ht _ (tableIndex_mem hc) rfl
    have hcross : ∀ a ∈ l.getColumnBindings, ∀ b ∈ r.getColumnBindings, attr a = attr b →
        ρl a.tableIndex a = ρr b.tableIndex b := by
      intro a ha b hb he
      have hvalues := htest (a, b) ((hpairs a b).mpr ⟨ha,hb,he⟩)
      rw [hvl a ha,hvr b hb] at hvalues
      refine (hcmp a (hop.mem_columns.mpr (.inl ha)) b (hop.mem_columns.mpr (.inr hb))
        (fun ht => hright hb (ht ▸ hleft ha)) he _ ?_ _ ?_).mp hvalues
      · exact hop.baseRows_left _ (hρl.mem _ (hleft ha))
      · exact hop.baseRows_right _ (hρr.mem _ (tableIndex_mem hb))
    refine ⟨fun x => if x ∈ l.tableIndices then ρl x else ρr x,⟨?_,?_⟩,?_⟩
    · intro x hx
      rw [hop.tables] at hx
      split
      · rename_i hxl
        exact hop.baseRows_left x (hρl.mem x hxl)
      · rename_i hxl
        exact hop.baseRows_right x (hρr.mem x ((mem_append.mp hx).resolve_left hxl))
    · intro c hc c' hc' ht he
      rcases hop.mem_columns.mp hc with hc | hc <;> rcases hop.mem_columns.mp hc' with hc' | hc'
      · simp only [hleft hc,hleft hc',if_true]
        exact hρl.agree c hc c' hc' ht he
      · simp only [hleft hc,hright hc',if_true,if_false]
        exact hcross c hc c' hc' he
      · simp only [hright hc,hleft hc',if_true,if_false]
        exact (hcross c' hc' c hc he.symm).symm
      · simp only [hright hc,hright hc',if_false]
        exact hρr.agree c hc c' hc' ht he
    · intro c hc
      unfold combine
      rcases hop.mem_columns.mp hc with hc | hc
      · simp only [hc,hleft hc,if_true]
        exact hvl c hc
      · have hnot : c ∉ l.getColumnBindings := fun h => hright hc (hleft h)
        simp only [hnot,hright hc,if_false]
        exact hvr c hc

theorem exists_row {ρ : Nat → Row} (hρ : Choice attr E p ρ) :
    ∃ o ∈ p.run E, ∀ c ∈ p.getColumnBindings, o c = ρ c.tableIndex c := by
  induction h with
  | get t n | filter e es t n => exact row_of_relation rfl rfl hρ
  | @join op pairs l r hop _ hpairs hl hr ihl ihr =>
    have hmem := hρ.mem
    rw [hop.tables] at hmem
    rw [hop.tables,nodup_append] at hnd
    have hl' : Choice attr E l ρ := by
      refine ⟨fun x hx => ?_,fun c hc c' hc' =>
        hρ.agree c (hop.mem_columns.mpr (.inl hc)) c' (hop.mem_columns.mpr (.inl hc'))⟩
      obtain ⟨n,hn,hrow⟩ := hmem x (mem_append_left _ hx)
      rw [hop.nodesOf] at hn
      rcases mem_append.mp hn with hn | hn
      · exact ⟨n,hn,hrow⟩
      · exact absurd rfl (hnd.2.2 x hx x (nodesOf_id_mem (mem_map.mpr ⟨_,hn,rfl⟩)))
    have hr' : Choice attr E r ρ := by
      refine ⟨fun x hx => ?_,fun c hc c' hc' =>
        hρ.agree c (hop.mem_columns.mpr (.inr hc)) c' (hop.mem_columns.mpr (.inr hc'))⟩
      obtain ⟨n,hn,hrow⟩ := hmem x (mem_append_right _ hx)
      rw [hop.nodesOf] at hn
      rcases mem_append.mp hn with hn | hn
      · exact absurd rfl (hnd.2.2 x (nodesOf_id_mem (mem_map.mpr ⟨_,hn,rfl⟩)) x hx)
      · exact ⟨n,hn,hrow⟩
    obtain ⟨lo,hlo,hvl⟩ := ihl hnd.1 (hcmp.left hop) hl'
    obtain ⟨ro,hro,hvr⟩ := ihr hnd.2.1 (hcmp.right hop) hr'
    refine ⟨combine l.getColumnBindings lo ro,hop.mem_rows.mpr ⟨lo,hlo,ro,hro,?_,rfl⟩,?_⟩
    · intro c hc
      obtain ⟨ha,hb,he⟩ := (hpairs c.1 c.2).mp hc
      have hta := tableIndex_mem ha
      have htb := tableIndex_mem hb
      have ht : c.1.tableIndex ≠ c.2.tableIndex := hnd.2.2 _ hta _ htb
      have hca := (hop.mem_columns (l := l) (r := r)).mpr (.inl ha)
      have hcb := (hop.mem_columns (l := l) (r := r)).mpr (.inr hb)
      rw [hvl c.1 ha,hvr c.2 hb]
      exact (hcmp c.1 hca c.2 hcb ht he _ (hmem _ (mem_append_left _ hta)) _
        (hmem _ (mem_append_right _ htb))).mpr (hρ.agree c.1 hca c.2 hcb ht he)
    · intro c hc
      unfold combine
      split
      · rename_i hcl
        exact hvl c hcl
      · rename_i hcl
        exact hvr c ((hop.mem_columns.mp hc).resolve_left hcl)

end NaturalJoin

section NullSafe

/-- The plan with IS NOT DISTINCT FROM in place of the comparisons of its joins. -/
def nullSafe : LogicalOperator → LogicalOperator
  | .binary (.comparisonJoin type m cs) l r =>
    .binary (.comparisonJoin type m (cs.map (fun c => { c with comparison := .notDistinctFrom })))
      (nullSafe l) (nullSafe r)
  | .binary op l r => .binary op (nullSafe l) (nullSafe r)
  | .unary op c => .unary op (nullSafe c)
  | .leaf op => .leaf op

variable {attr : ColumnBinding → A} {cmp : ComparisonType} {op : BinaryOp} {p l r : LogicalOperator}
  {pairs : List (ColumnBinding × ColumnBinding)} {E : Execution}

theorem JoinsOn.nullSafe (h : JoinsOn cmp op pairs) :
    ∃ op', JoinsOn .notDistinctFrom op' pairs ∧ nullSafe (.binary op l r) =
      .binary op' (Transfer.nullSafe l) (Transfer.nullSafe r) := by
  cases h with
  | cross => exact ⟨_,.cross,rfl⟩
  | comparison m =>
    refine ⟨_,.comparison m pairs,?_⟩
    simp only [Transfer.nullSafe,map_map]
    rfl

/-- Only the comparisons change. -/
theorem NaturalJoin.nullSafe (h : NaturalJoin attr cmp p) :
    NaturalJoin attr .notDistinctFrom (nullSafe p) ∧
      (Transfer.nullSafe p).getColumnBindings = p.getColumnBindings ∧
      (Transfer.nullSafe p).tableIndices = p.tableIndices ∧
      nodesOf (Transfer.nullSafe p) = nodesOf p := by
  induction h with
  | get t n => exact ⟨.get t n,rfl,rfl,rfl⟩
  | filter e es t n => exact ⟨.filter e es t n,rfl,rfl,rfl⟩
  | @join op pairs l r hop hnd hpairs _ _ ihl ihr =>
    obtain ⟨hl,hcl,htl,hnl⟩ := ihl
    obtain ⟨hr,hcr,htr,hnr⟩ := ihr
    obtain ⟨op',hop',he⟩ := hop.nullSafe (l := l) (r := r)
    rw [he]
    refine ⟨.join hop' hnd (by rw [hcl,hcr]; exact hpairs) hl hr,?_,?_,?_⟩
    · rw [LogicalOperator.getColumnBindings,LogicalOperator.getColumnBindings,
        hop'.getColumnBindings,hop.getColumnBindings,hcl,hcr]
    · rw [hop'.tables,hop.tables,htl,htr]
    · rw [hop'.nodesOf,hop.nodesOf,hnl,hnr]

theorem comparesEqual_nullSafe (E : Execution) (p : LogicalOperator) :
    ComparesEqual attr .notDistinctFrom E p := by
  intro c _ c' _ _ _ r _ r' _
  simp [compareValues]

/-- No relation has a NULL in a column it is joined on. -/
def KeysNotNull (attr : ColumnBinding → A) (E : Execution) (p : LogicalOperator) : Prop :=
  ∀ c ∈ p.getColumnBindings, ∀ c' ∈ p.getColumnBindings, c.tableIndex ≠ c'.tableIndex →
    attr c = attr c' → ∀ r ∈ baseRows E p c.tableIndex, r c ≠ .null

theorem KeysNotNull.comparesEqual (h : KeysNotNull attr E p) : ComparesEqual attr .equal E p := by
  intro c hc c' hc' ht he r hr r' _
  rw [compareValues_equal]
  exact and_iff_left (h c hc c' hc' ht he r hr)

end NullSafe

end PredTrans.Transfer

import PredTrans.Transfer.Soundness

namespace PredTrans.Transfer
open Plan PredicateTransferOptimizer List LogicalOperator Bool

/-! Which plans keep their result under predicate transfer. -/

section Conditions

/-- If the filter stands for the comparison of `a` with `b`, it is built from copies of `a`, and no
operator above the origin of `b` can tell that rows are missing which fail the test. -/
def passesOn (f : BloomFilter) (source : LogicalOperator) (a : ColumnBinding)
    (target : LogicalOperator) (b : ColumnBinding) : Bool :=
  !(f.columnBindingsBuilt.zip f.columnBindingsApplied).contains
    (origin source a, origin target b) ||
    copyPath source a && transparentPath target b

def crossable (f : BloomFilter) (l r : LogicalOperator) : JoinCondition → Bool
  | ⟨.boundColumnRef a, .boundColumnRef b, .equal⟩ => passesOn f l a r b && passesOn f r b l a
  | _ => true

/-- The filter stands for the comparison, in one direction or the other. -/
def standsFor (f : BloomFilter) (l r : LogicalOperator) : JoinCondition → Bool
  | ⟨.boundColumnRef a, .boundColumnRef b, .equal⟩ =>
    (f.columnBindingsBuilt.zip f.columnBindingsApplied).contains (origin l a, origin r b) ||
      (f.columnBindingsBuilt.zip f.columnBindingsApplied).contains (origin r b, origin l a)
  | _ => false

/-- The joins of a plan with their conditions and inputs. -/
def joinParts : LogicalOperator → List JoinCondition × LogicalOperator × LogicalOperator
  | .binary (.comparisonJoin _ _ cs) l r | .binary (.delimJoin _ _ cs) l r => (cs, l, r)
  | op => ([], op, op)

/-- The filter crosses no limit, no window with another partition and no DISTINCT ON other columns
on its way from its join to where it is applied. -/
def Crosses (p : LogicalOperator) (f : BloomFilter) : Prop :=
  ∀ j ∈ p.subplans, (joinParts j).1.all (crossable f (joinParts j).2.1 (joinParts j).2.2) = true

/-- If the filter stems from a mark join, only rows with a TRUE marker are looked at above. -/
def KeepsMarks (p : LogicalOperator) (f : BloomFilter) : Prop :=
  ∀ j ∈ p.subplans, (joinParts j).1.any (standsFor f (joinParts j).2.1 (joinParts j).2.2) = true →
    ∀ m ∈ markIndex? j, MarkerFiltered p j m

instance decidableCrosses (p : LogicalOperator) (f : BloomFilter) : Decidable (Crosses p f) :=
  inferInstanceAs (Decidable (∀ j ∈ p.subplans, _))

instance decidableMarkerFiltered (p j : LogicalOperator) (m : Nat) :
    Decidable (MarkerFiltered p j m) :=
  inferInstanceAs (Decidable (∃ q ∈ p.subplans, _))

instance decidableKeepsMarks (p : LogicalOperator) (f : BloomFilter) : Decidable (KeepsMarks p f) :=
  inferInstanceAs (Decidable (∀ j ∈ p.subplans, _ → ∀ m ∈ markIndex? j, _))

variable {p : LogicalOperator} {source target : Nat}

theorem IsJoin.joinParts_eq (hj : IsJoin j type cs l r) : joinParts j = (cs, l, r) := by
  cases hj <;> rfl

theorem FilterTransfer.JustifiedBy.mem_zip {t : FilterTransfer}
    {js : List (Justification p t.source t.target)} {j : Justification p t.source t.target}
    (hwf : p.WellFormed) (hjs : t.JustifiedBy js) (hj : j ∈ js) :
      (origin j.sourcePlan j.sourceColumn, origin j.targetPlan j.targetColumn) ∈
      t.filter.columnBindingsBuilt.zip t.filter.columnBindingsApplied := by
  rw [hjs.2.1,hjs.2.2,zip_map',← j.source_origin hwf,← j.target_origin hwf]
  exact mem_map_of_mem hj

/-- A comparison behind an applied filter is safe if the filter crosses nothing it must not. -/
theorem FilterTransfer.JustifiedBy.safe {t : FilterTransfer}
    {js : List (Justification p t.source t.target)} (hwf : p.WellFormed) (hjs : t.JustifiedBy js)
    (hcross : Crosses p t.filter) (hmarks : KeepsMarks p t.filter) : ∀ j ∈ js, j.Safe := by
  intro j hj
  have hzip := hjs.mem_zip hwf hj
  have hpaths := hcross j.join j.join_mem
  have hmark := hmarks j.join j.join_mem
  rw [j.isJoin.joinParts_eq] at hpaths hmark
  have hpaths := all_eq_true.mp hpaths _ j.mem
  have hstands : standsFor t.filter j.left j.right
      ⟨.boundColumnRef j.a, .boundColumnRef j.b, .equal⟩ = true := by
    unfold Justification.sourcePlan Justification.targetPlan Justification.sourceColumn
      Justification.targetColumn at hzip
    cases h : j.toRight <;> simp [h] at hzip <;> simp [standsFor,hzip]
  have hsafe : copyPath j.sourcePlan j.sourceColumn = true ∧
      transparentPath j.targetPlan j.targetColumn = true := by
    unfold Justification.sourcePlan Justification.targetPlan Justification.sourceColumn
      Justification.targetColumn at hzip ⊢
    cases h : j.toRight <;> simp [h] at hzip <;> simp [crossable,passesOn,hzip] at hpaths <;>
      simp [hpaths]
  exact ⟨hsafe.1,hsafe.2,hmark (any_eq_true.mpr ⟨_,j.mem,hstands⟩)⟩

end Conditions

section Optimize

variable (ctx : Context) {p : LogicalOperator}

/-- Without a transfer graph the plan stays as it is. -/
theorem optimize_of_not_built (hwf : p.WellFormed) (hbuild : (build ctx p).2 = false) :
    optimize ctx p = .ok p := by
  unfold optimize
  rw [transferPasses_of_not_built ctx hwf hbuild]
  exact congrArg Except.ok (insertCreateBFOperator_start _ p)

/-- The optimizer returns a plan, and no legal execution tells it from the input if the filters in
it are safe. -/
theorem optimize_preserves (hwf : p.WellFormed) :
    ∃ plan, optimize ctx p = .ok plan ∧
      ((∀ f ∈ appliedFilters plan, Crosses p f ∧ KeepsMarks p f) →
        ∀ E, Legal E plan → plan.run E = p.run E) := by
  cases hbuild : (build ctx p).2 with
  | false => exact ⟨p,optimize_of_not_built ctx hwf hbuild,fun _ _ _ => rfl⟩
  | true =>
    obtain ⟨s,ts,hs,h⟩ := transferred_of_build ctx hwf hbuild
    refine ⟨s.insertCreateBFOperator p,?_,fun hsafe E hlegal => ?_⟩
    · unfold optimize
      rw [hs]
      rfl
    · refine run_preserved h (fun t _ ht js hjs => ?_) hlegal
      exact hjs.safe hwf (hsafe t.filter ht).1 (hsafe t.filter ht).2

end Optimize

section JoinCore

/-- The operators of the join core. The join types come as a parameter. -/
def builtFrom (types : JoinType → Bool) : LogicalOperator → Bool
  | .leaf (.get _ _) => true
  | .unary (.filter _ _) c | .unary (.projection _ _) c => builtFrom types c
  | .unary (.aggregate _ _ _ groups _ sets _) c => !isUngrouped groups sets && builtFrom types c
  | .binary (.comparisonJoin type _ _) l r => types type && builtFrom types l && builtFrom types r
  | _ => false

def JoinType.core : JoinType → Bool
  | .inner | .left | .right | .outer | .semi | .rightSemi | .anti => true
  | _ => false

variable {types : JoinType → Bool} {p : LogicalOperator}

/-- Every operator of the core lets a test of a column through. -/
theorem transparentPath_of_builtFrom (hsingle : types .single = false)
    (h : builtFrom types p = true)
    (c : ColumnBinding) : transparentPath p c = true := by
  unfold transparentPath
  induction p generalizing c with
  | leaf op => rfl
  | unary op child ih =>
    unfold pathAll
    cases hs : sourceColumn op c with
    | none => rfl
    | some b =>
      cases op with
      | filter e es | projection t es => exact ih h b
      | aggregate g a gs groups aggregates sets functions =>
        exact ih (and_eq_true_iff.mp h).2 b
      | _ => cases h
  | binary op l r ihl ihr =>
    cases op with
    | comparisonJoin type m cs =>
      simp only [builtFrom,and_eq_true] at h
      have hne : type ≠ .single := by
        rintro rfl
        rw [hsingle] at h
        cases h.1.1
      have hop : ∀ side, BinaryOp.transparent (.comparisonJoin type m cs) side = true := by
        intro side
        cases type <;> cases side <;> first | rfl | exact absurd rfl hne
      unfold pathAll
      split
      · rw [hop,ihl h.1.2]
        rfl
      · rw [hop,ihr h.2]
        rfl
      · rfl
    | _ => cases h

theorem pathAll_mono (hu : ∀ op c, u op c = true → u' op c = true)
    (hb : ∀ op side, b op side = true → b' op side = true) (h : pathAll u b p c = true) :
    pathAll u' b' p c = true := by
  induction p generalizing c with
  | leaf op => rfl
  | unary op child ih =>
    unfold pathAll at h ⊢
    cases hs : sourceColumn op c with
    | none => rfl
    | some d =>
      rw [hs,and_eq_true] at h
      exact and_eq_true_iff.mpr ⟨hu op c h.1,ih h.2⟩
  | binary op l r ihl ihr =>
    unfold pathAll at h ⊢
    cases hs : sourceSide op l.getColumnBindings r.getColumnBindings c with
    | none => rfl
    | some side =>
      rw [hs] at h
      cases side with
      | left =>
        obtain ⟨hop,hl⟩ := and_eq_true_iff.mp h
        exact and_eq_true_iff.mpr ⟨hb op _ hop,ihl hl⟩
      | right =>
        obtain ⟨hop,hr⟩ := and_eq_true_iff.mp h
        exact and_eq_true_iff.mpr ⟨hb op _ hop,ihr hr⟩

/-- What lets tests through copies values. -/
theorem copyPath_of_transparentPath (h : transparentPath p c = true) : copyPath p c = true := by
  refine pathAll_mono (fun op c hop => ?_) (fun op side hop => copies_of_transparent hop) h
  cases op <;> first | rfl | cases hop

theorem builtFrom_of_mem (h : builtFrom types p = true) (hq : q ∈ p.subplans) :
    builtFrom types q = true := by
  refine subplans_induction hq h ?_ ?_
  · intro op c h
    cases op with
    | filter e es | projection t es => exact h
    | aggregate g a gs groups aggregates sets functions => exact (and_eq_true_iff.mp h).2
    | _ => cases h
  · intro op l r h
    cases op with
    | comparisonJoin type m cs =>
      simp only [builtFrom,and_eq_true] at h
      exact ⟨h.1.2,h.2⟩
    | _ => cases h

theorem crosses_of_builtFrom (hsingle : types .single = false) (h : builtFrom types p = true)
    (f : BloomFilter) : Crosses p f := by
  intro j hj
  have hpath : ∀ q ∈ j.subplans, ∀ c, transparentPath q c = true ∧ copyPath q c = true := by
    intro q hq c
    have := transparentPath_of_builtFrom hsingle (builtFrom_of_mem h (subplans_trans hq hj)) c
    exact ⟨this,copyPath_of_transparentPath this⟩
  have hparts : (joinParts j).2.1 ∈ j.subplans ∧ (joinParts j).2.2 ∈ j.subplans := by
    unfold joinParts
    split <;> simp [subplans,self_mem_subplans]
  rw [all_eq_true]
  intro c _
  unfold crossable
  split
  · simp [passesOn,hpath _ hparts.1,hpath _ hparts.2]
  · rfl

/-- On the join core predicate transfer returns the same rows, in the same order. -/
theorem optimize_preserves_joinCore (ctx : Context) (hwf : p.WellFormed)
    (hcore : builtFrom JoinType.core p = true) :
    ∃ plan, optimize ctx p = .ok plan ∧ ∀ E, Legal E plan → plan.run E = p.run E := by
  obtain ⟨plan,hplan,hrun⟩ := optimize_preserves ctx hwf
  refine ⟨plan,hplan,hrun fun f _ => ⟨crosses_of_builtFrom rfl hcore f,?_⟩⟩
  intro j hj _ m hm
  have hj := builtFrom_of_mem hcore hj
  unfold markIndex? at hm
  split at hm
  · cases hj
  · cases hj
  · cases hm

def equals (a b : ColumnBinding) : JoinCondition := ⟨.boundColumnRef a, .boundColumnRef b, .equal⟩

/-- A renamed scan, left-joined with a grouped one. -/
def leftGrouped : LogicalOperator :=
  .binary (.comparisonJoin .left 9 [equals ⟨3, 0⟩ ⟨4, 0⟩])
    (.unary (.projection 3 [.boundColumnRef ⟨0, 1⟩])
      (.unary (.filter (.other 0) []) (.leaf (.get 0 2))))
    (.unary (.aggregate 4 5 6 [.boundColumnRef ⟨1, 0⟩] [0] [] []) (.leaf (.get 1 1)))

theorem leftGrouped_wellFormed : leftGrouped.WellFormed := by
  refine ⟨by decide,?_,by simp [leftGrouped,noBF,UnaryOp.isBF]⟩
  simp [leftGrouped,equals,inScope,BinaryOp.inScope,UnaryOp.inScope,
    conditionsInScope,getColumnBindings,LeafOp.getColumnBindings,
    UnaryOp.getColumnBindings,mem_generateColumnBindings]

theorem leftGrouped_preserved : leftGrouped.WellFormed ∧
    builtFrom JoinType.core leftGrouped = true ∧
    ∃ plan, optimize default leftGrouped = .ok plan ∧
      ∀ E, Legal E plan → plan.run E = leftGrouped.run E :=
  ⟨leftGrouped_wellFormed,by decide,
    optimize_preserves_joinCore default leftGrouped_wellFormed (by decide)⟩

end JoinCore

section Marks

variable {p : LogicalOperator}

/-- `WHERE a IN (..) AND (b IN (..) AND ..)`: one filter over two mark joins. -/
def stackedIn : LogicalOperator :=
  .unary (.filter (.boundColumnRef ⟨3, 0⟩) [.conjunctionAnd (.boundColumnRef ⟨4, 0⟩) (.other 0)])
    (.binary (.comparisonJoin .mark 4 [equals ⟨0, 1⟩ ⟨2, 0⟩])
      (.binary (.comparisonJoin .mark 3 [equals ⟨0, 0⟩ ⟨1, 0⟩]) (.leaf (.get 0 2))
        (.leaf (.get 1 1)))
      (.leaf (.get 2 1)))

theorem stackedIn_wellFormed : stackedIn.WellFormed := by
  refine ⟨by decide,?_,by simp [stackedIn,noBF,UnaryOp.isBF]⟩
  simp [stackedIn,equals,inScope,BinaryOp.inScope,UnaryOp.inScope,conditionsInScope,
    getColumnBindings,LeafOp.getColumnBindings,BinaryOp.getColumnBindings,joinBindings,
    mem_generateColumnBindings]

theorem stackedIn_crosses (f : BloomFilter) : Crosses stackedIn f :=
  @crosses_of_builtFrom (fun type => JoinType.core type || type = .mark) _ rfl (by decide) f

theorem stackedIn_keepsMarks (f : BloomFilter) : KeepsMarks stackedIn f := by
  have hall : ∀ j ∈ stackedIn.subplans, ∀ m ∈ markIndex? j, MarkerFiltered stackedIn j m := by
    decide
  exact fun j hj _ => hall j hj

/-- `SELECT a, a IN (..)`: every left row is in the result. -/
def projectedIn : LogicalOperator :=
  .unary (.projection 3 [.boundColumnRef ⟨0, 0⟩, .boundColumnRef ⟨2, 0⟩])
    (.binary (.comparisonJoin .mark 2 [equals ⟨0, 0⟩ ⟨1, 0⟩]) (.leaf (.get 0 1)) (.leaf (.get 1 1)))

/-- Tables of one integer column. -/
def integerTables (tables : Nat → List Int) (keep : Nat → Row → Bool) : Execution :=
  { (default : Interpretation) with
    tables := fun t => (tables t).map (fun i _ => .integer i)
    keep := keep }

/-- Table 0 holds 1 and 2, table 1 holds 1; every filter keeps the rows with a 1. -/
def inExecution : Execution :=
  integerTables (fun t => if t = 0 then [1, 2] else [1])
    (fun _ y => y ⟨0, 0⟩ = .integer 1 || y ⟨1, 0⟩ = .integer 1)

end Marks

section Barriers

/-- No filter of the plan is tested below an operator that could tell: a limit, a window with
another partition, a DISTINCT ON other columns. -/
structure Transferable (p plan : LogicalOperator) : Prop where
  marks : ∀ f ∈ appliedFilters plan, KeepsMarks p f
  crosses : ∀ f ∈ appliedFilters plan, Crosses p f

/-- A cycle of three joins. The window is partitioned by one of the two join columns of its table,
and the comparison of the other one is no edge of the spanning tree. -/
def partitionedWindow : LogicalOperator :=
  .binary (.comparisonJoin .inner 9 [equals ⟨1, 1⟩ ⟨2, 0⟩, equals ⟨0, 1⟩ ⟨2, 1⟩])
    (.binary (.comparisonJoin .inner 8 [equals ⟨0, 0⟩ ⟨1, 0⟩])
      (.unary (.window 3 [⟨[.boundColumnRef ⟨0, 1⟩], 0⟩]) (.leaf (.get 0 2))) (.leaf (.get 1 2)))
    (.unary (.limit none 0) (.leaf (.get 2 2)))

theorem partitionedWindow_wellFormed : partitionedWindow.WellFormed := by
  refine ⟨by decide,?_,by simp [partitionedWindow,noBF,UnaryOp.isBF]⟩
  simp [partitionedWindow,equals,inScope,BinaryOp.inScope,UnaryOp.inScope,conditionsInScope,
    getColumnBindings,LeafOp.getColumnBindings,UnaryOp.getColumnBindings,
    BinaryOp.getColumnBindings,joinBindings,mem_generateColumnBindings]

/-- A join with the first row of a table. -/
def joinedLimit : LogicalOperator :=
  .binary (.comparisonJoin .inner 9 [equals ⟨0, 0⟩ ⟨1, 0⟩])
    (.unary (.limit (some 1) 0) (.leaf (.get 0 1))) (.leaf (.get 1 1))

/-- Table 0 holds 1 and 2, table 1 holds 2; every filter keeps the rows with a 2. -/
def limitExecution : Execution :=
  integerTables (fun t => if t = 0 then [1, 2] else [2])
    (fun _ y => y ⟨0, 0⟩ = .integer 2 || y ⟨1, 0⟩ = .integer 2)

end Barriers

end PredTrans.Transfer

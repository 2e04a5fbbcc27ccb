import PredTrans.Plan.Commute
import PredTrans.Plan.Shape
import PredTrans.Transfer.Nodes

namespace PredTrans.Transfer
open Plan Library
open List

/-! Where the columns of a plan come from, and which operators let a test of
such columns through. -/

theorem columnRef?_eq_some : columnRef? e = some b ↔ e = .boundColumnRef b := by
  cases e <;> simp [columnRef?]

/-- The input column an output column copies, if the optimizer sees it as a copy. -/
def sourceColumn : UnaryOp → ColumnBinding → Option ColumnBinding
  | .projection _ es, c => es[c.columnIndex]?.bind columnRef?
  | .aggregate g _ _ groups _ sets _, c =>
    if isUngrouped groups sets = true ∨ c.tableIndex ≠ g then none
    else groups[c.columnIndex]?.bind columnRef?
  | .window w _, c | .unnest w _ _, c => if c.tableIndex = w then none else some c
  | .tableFunction _ _ _, _ => none
  | .other _ passes t n, c => if passes = false ∨ (n ≠ 0 ∧ c.tableIndex = t) then none else some c
  | _, c => some c

inductive Side where
  | left
  | right
deriving DecidableEq, Repr

/-- The side of a binary operator an output column copies. -/
def sourceSide (op : BinaryOp) (l r : List ColumnBinding) (c : ColumnBinding) : Option Side :=
  match op with
  | .setOperation _ _ _ => none
  | _ => if c ∈ l then some .left else if c ∈ r then some .right else none

/-- Follows an output column down to the operator it stems from. -/
def origin : LogicalOperator → ColumnBinding → ColumnBinding
  | .leaf _, c => c
  | .unary op child, c => (sourceColumn op c).elim c (origin child)
  | .binary op l r, c =>
    match sourceSide op l.getColumnBindings r.getColumnBindings c with
    | some .left => origin l c
    | some .right => origin r c
    | none => c

/-- Operators whose output rows copy the values of their input rows. -/
def UnaryOp.copies : UnaryOp → Bool
  | .other _ _ _ _ => false
  | _ => true

/-- Operators whose output for the rows a test of column `c` accepts does not
depend on the other rows. -/
def UnaryOp.transparent (op : UnaryOp) (c : ColumnBinding) : Bool :=
  match op with
  -- all rows, or none
  | .limit n offset => n = none && offset = 0 || n = some 0
  | .topN _ n _ => n = 0
  | .other _ _ _ _ => false
  | .window _ ws => ws.all (fun w => w.partitions.contains (.boundColumnRef c))
  | .distinct targets _ => targets.contains (.boundColumnRef c)
  | _ => true

def BinaryOp.copies : BinaryOp → Bool
  | .other _ _ _ _ _ => false
  | _ => true

def BinaryOp.transparent (op : BinaryOp) (side : Side) : Bool :=
  match op, side with
  | .other _ _ _ _ _, _ => false
  | .comparisonJoin .single _ _, .right | .delimJoin .single _ _, .right
  | .anyJoin .single _ _, .right => false
  | _, _ => true

section Unary

variable {E : Execution} {op : UnaryOp} {child : List ColumnBinding} {rows : List Row}

variable (child) in
/-- Each output row copies its columns from one input row; a grouping set may
blank out some of them. -/
theorem rows_source (hop : UnaryOp.copies op = true) (ho : o ∈ op.rows E rows) :
    (∀ c b, c ∈ op.getColumnBindings child → sourceColumn op c = some b → o c = .null) ∨
      ∃ r ∈ rows, ∀ c b, c ∈ op.getColumnBindings child → sourceColumn op c = some b →
        o c = .null ∨ o c = r b := by
  have hself : o ∈ rows → sourceColumn op = some → ∃ r ∈ rows, ∀ c b,
      c ∈ op.getColumnBindings child → sourceColumn op c = some b → o c = .null ∨ o c = r b := by
    intro h hsrc
    refine ⟨o,h,fun c b _ hb => .inr ?_⟩
    rw [hsrc] at hb
    exact congrArg o (Option.some.inj hb)
  have hextend : ∀ {w : Nat} {columns : Nat → Value} {r : Row}, o = extendRow w columns r →
      r ∈ rows → (∀ c, sourceColumn op c = if c.tableIndex = w then none else some c) →
      ∃ r ∈ rows, ∀ c b, c ∈ op.getColumnBindings child → sourceColumn op c = some b →
        o c = .null ∨ o c = r b := by
    rintro w columns r rfl hr hsrc
    refine ⟨r,hr,fun c b _ hb => .inr ?_⟩
    rw [hsrc] at hb
    split at hb
    · cases hb
    · rw [← Option.some.inj hb]
      exact if_neg ‹_›
  cases op with
  | filter e es | useBF bf address => exact .inr (hself (mem_filter.mp ho).1 rfl)
  | projection t es =>
    obtain ⟨r,hr,rfl⟩ := mem_map.mp ho
    refine .inr ⟨r,hr,fun c b hc hb => .inr ?_⟩
    obtain ⟨e,he,hb⟩ := Option.bind_eq_some_iff.mp hb
    rw [columnRef?_eq_some] at hb
    simp [projectRow,ownRow,(mem_generateColumnBindings.mp hc).1,he,hb,Expression.eval]
  | aggregate g a gs groups aggregates sets functions =>
    obtain ⟨set,_,ho⟩ := mem_flatMap.mp ho
    obtain ⟨key,hkey,rfl⟩ := mem_map.mp ho
    have hvalue : ∀ r, key = groupKey E.toInterpretation groups set r → ∀ c b,
        sourceColumn (.aggregate g a gs groups aggregates sets functions) c = some b →
        (groupRow E.toInterpretation g a gs aggregates functions set key
          (rows.filter (fun r => set.isEmpty || groupKey E.toInterpretation groups set r =
            key))) c =
          if c.columnIndex ∈ set then r b else .null := by
      rintro r rfl c b hb
      simp only [sourceColumn] at hb
      split at hb
      · cases hb
      rename_i hg
      push Not at hg
      obtain ⟨e,he,hb⟩ := Option.bind_eq_some_iff.mp hb
      rw [columnRef?_eq_some] at hb
      simp only [groupRow,hg.2,if_true]
      rw [groupKey_getD,he,hb]
      rfl
    by_cases hset : set.isEmpty = true
    · rw [if_pos hset,mem_singleton] at hkey
      refine .inl (fun c b _ hb => ?_)
      rw [hvalue nullRow hkey c b hb,List.isEmpty_iff.mp hset]
      simp
    · rw [if_neg hset,mem_map] at hkey
      obtain ⟨r,hr,rfl⟩ := hkey
      refine .inr ⟨r,mem_of_firstsBy hr,fun c b _ hb => ?_⟩
      rw [hvalue r rfl c b hb]
      split
      · exact .inr rfl
      · exact .inl rfl
  | window w es =>
    have hwin : ∀ before rest, o ∈ windowRows E.toInterpretation w es rows before rest →
        ∃ r ∈ rest, ∃ columns, o = extendRow w columns r := by
      intro before rest h
      induction rest generalizing before with
      | nil => cases h
      | cons r rest ih =>
        rcases mem_cons.mp h with rfl | h
        · exact ⟨r,mem_cons_self,_,rfl⟩
        · obtain ⟨r',hr',hcols⟩ := ih _ h
          exact ⟨r',mem_cons_of_mem _ hr',hcols⟩
    obtain ⟨r,hr,columns,he⟩ := hwin [] rows ho
    exact .inr (hextend he hr (fun c => rfl))
  | unnest u n f =>
    obtain ⟨r,hr,ho⟩ := mem_flatMap.mp ho
    obtain ⟨x,_,he⟩ := mem_map.mp ho
    exact .inr (hextend he.symm hr (fun c => rfl))
  | tableFunction t n f => exact .inl (by simp [sourceColumn])
  | limit n offset =>
    refine .inr (hself ?_ rfl)
    cases n with
    | none => exact mem_of_mem_drop ho
    | some n => exact mem_of_mem_drop (mem_of_mem_take ho)
  | topN order n offset =>
    refine .inr (hself ?_ rfl)
    exact (mem_insertionSort _).mp (mem_of_mem_drop (mem_of_mem_take ho))
  | orderBy order => exact .inr (hself ((mem_insertionSort _).mp ho) rfl)
  | distinct targets order =>
    refine .inr (hself ?_ rfl)
    have := mem_of_firstsBy ho
    cases order with
    | none => exact this
    | some o => exact (mem_insertionSort _).mp this
  | createBF address bfs => exact .inr (hself ho rfl)
  | other id passes t n => cases hop

variable {κ : ValueTest} {cs : List ColumnBinding} {f : ColumnBinding → ColumnBinding}

theorem eval_eq_of_mem_key {targets : List Expression} (hc : .boundColumnRef c ∈ targets)
    (h : targets.map (Expression.eval I r) = targets.map (Expression.eval I r')) : r c = r' c :=
  map_inj_left.mp h _ hc

/-- Through a transparent operator, rows outside the test may be dropped first. -/
theorem rows_filter (hcs : cs ≠ []) (hop : ∀ c ∈ cs, UnaryOp.transparent op c = true)
    (hout : ∀ c ∈ cs, c ∈ op.getColumnBindings child)
    (hsrc : ∀ c ∈ cs, sourceColumn op c = some (f c)) :
    (op.rows E rows).filter (κ.on cs) =
      (op.rows E (rows.filter (κ.on (cs.map f)))).filter (κ.on cs) := by
  have hsame : ∀ g : List Row → List Row, (∀ rs, (g rs).filter (κ.on cs) =
      g (rs.filter (κ.on cs))) →
      (∀ c ∈ cs, c = f c) →
      (g rows).filter (κ.on cs) = (g (rows.filter (κ.on (cs.map f)))).filter (κ.on cs) := by
    intro g hg hf
    have hid : cs.map f = cs := by
      nth_rewrite 2 [← map_id cs]
      exact map_congr_left (fun c hc => (hf c hc).symm)
    rw [hid,hg,hg,filter_filter]
    simp
  have hid : sourceColumn op = some → ∀ c ∈ cs, c = f c :=
    fun h c hc => Option.some.inj ((congrFun h c).symm.trans (hsrc c hc))
  have hextend : ∀ {w : Nat}, (∀ c, sourceColumn op c = if c.tableIndex = w then none else some c) →
      (∀ columns r, κ.on cs (extendRow w columns r) = κ.on cs r) ∧ ∀ c ∈ cs, c = f c := by
    intro w h
    have hne : ∀ c ∈ cs, c.tableIndex ≠ w ∧ c = f c := by
      intro c hc
      have := hsrc c hc
      rw [h] at this
      split at this
      · cases this
      · exact ⟨‹_›,Option.some.inj this⟩
    refine ⟨fun columns r => ?_,fun c hc => (hne c hc).2⟩
    exact congrArg κ.accepts (map_congr_left (fun c hc => if_neg (hne c hc).1))
  cases op with
  | filter e es =>
    refine hsame (fun rs => rs.filter _) (fun rs => ?_) (hid rfl)
    rw [filter_filter,filter_filter]
    exact filter_congr (fun _ _ => Bool.and_comm _ _)
  | projection t es =>
    have hmap : ∀ r, κ.on cs (projectRow E.toInterpretation t es r) = κ.on (cs.map f) r := by
      refine fun r => κ.on_map (fun c hc => ?_)
      obtain ⟨e,he,hb⟩ := Option.bind_eq_some_iff.mp (hsrc c hc)
      rw [columnRef?_eq_some] at hb
      simp [projectRow,ownRow,(mem_generateColumnBindings.mp (hout c hc)).1,he,hb,
        Expression.eval]
    simp only [UnaryOp.rows,filter_map,Function.comp_def,hmap,filter_filter,
      Bool.and_self]
  | aggregate g a gs groups aggregates sets functions =>
    have hgroup : ∀ c ∈ cs, c.tableIndex = g ∧
        groups[c.columnIndex]? = some (.boundColumnRef (f c)) := by
      intro c hc
      have hb := hsrc c hc
      simp only [sourceColumn] at hb
      split at hb
      · cases hb
      · rename_i h
        push Not at h
        obtain ⟨e,he,hb⟩ := Option.bind_eq_some_iff.mp hb
        exact ⟨h.2,(columnRef?_eq_some.mp hb) ▸ he⟩
    simp only [UnaryOp.rows,filter_flatMap]
    refine flatMap_congr (fun set _ => ?_)
    exact groupRows_filter E.toInterpretation g a gs groups aggregates functions hcs
      (fun c hc => (hgroup c hc).1) (fun c hc => (hgroup c hc).2) rows set
  | window w ws =>
    obtain ⟨hown,hcopy⟩ := hextend (fun c => rfl)
    refine hsame (fun rs => windowRows E.toInterpretation w ws rs [] rs) (fun rs => ?_) hcopy
    refine windowRows_filter E.toInterpretation hown (fun v hv r r' hkey => ?_) rs [] rs
    refine congrArg κ.accepts (map_congr_left (fun c hc => ?_))
    have hpart := all_eq_true.mp (hop c hc) v hv
    exact eval_eq_of_mem_key (contains_iff_mem.mp hpart) hkey
  | unnest u n fn =>
    obtain ⟨hown,hcopy⟩ := hextend (fun c => rfl)
    refine hsame (fun rs => rs.flatMap _) (fun rs => ?_) hcopy
    refine filter_flatMap_of_const (fun r _ o ho => ?_)
    obtain ⟨x,_,rfl⟩ := mem_map.mp ho
    exact hown _ r
  | orderBy order => exact hsame (sortRows (E.order order)) (sortRows_filter _ _) (hid rfl)
  | distinct targets order =>
    refine hsame (distinctRows E.toInterpretation targets order) (fun rs => ?_) (hid rfl)
    refine distinctRows_filter E.toInterpretation (fun r r' hkey => ?_) order rs
    refine congrArg κ.accepts (map_congr_left (fun c hc => ?_))
    exact eval_eq_of_mem_key (contains_iff_mem.mp (hop c hc)) hkey
  | createBF address bfs => exact hsame id (fun _ => rfl) (hid rfl)
  | useBF bf address =>
    refine hsame (fun rs => rs.filter (E.keep bf.id)) (fun rs => ?_) (hid rfl)
    rw [filter_filter,filter_filter]
    exact filter_congr (fun _ _ => Bool.and_comm _ _)
  | tableFunction t n fn =>
    obtain ⟨c,hc⟩ := exists_mem_of_ne_nil cs hcs
    cases hsrc c hc
  | limit n offset =>
    obtain ⟨c,hc⟩ := exists_mem_of_ne_nil cs hcs
    have hall : n = none ∧ offset = 0 ∨ n = some 0 := by simpa [UnaryOp.transparent] using hop c hc
    rcases hall with ⟨rfl,rfl⟩ | rfl
    · exact hsame id (fun _ => rfl) (hid rfl)
    · simp [UnaryOp.rows,sliceRows]
  | topN order n offset =>
    obtain ⟨c,hc⟩ := exists_mem_of_ne_nil cs hcs
    obtain rfl : n = 0 := of_decide_eq_true (hop c hc)
    simp [UnaryOp.rows,sliceRows]
  | other id passes t n =>
    obtain ⟨c,hc⟩ := exists_mem_of_ne_nil cs hcs
    cases hop c hc

end Unary

section Binary

variable {E : Execution} {op : BinaryOp} {L R : List ColumnBinding} {ls rs : List Row}
  {type : JoinType} {m : Nat} {test : Row → Row → Value} {c : ColumnBinding}

theorem sourceSide_left (h : sourceSide op L R c = some .left) : c ∈ L := by
  unfold sourceSide at h
  split at h
  · cases h
  · split at h
    · assumption
    · split at h <;> cases h

theorem sourceSide_right (h : sourceSide op L R c = some .right) : c ∉ L ∧ c ∈ R := by
  unfold sourceSide at h
  split at h
  · cases h
  split at h
  · cases h
  · split at h
    · exact ⟨‹_›,‹_›⟩
    · cases h

theorem showsLeft_of_mem (hdisj : ∀ c ∈ L, c ∉ R) (hc : c ∈ L) (h : c ∈ joinBindings type m L R) :
    type.showsLeft = true := by
  cases type <;> first | rfl | exact absurd h (hdisj c hc)

theorem showsRight_of_mem (hmark : type = .mark → c.tableIndex ≠ m) (hc : c ∉ L)
    (h : c ∈ joinBindings type m L R) : type.showsRight = true := by
  cases type with
  | semi | anti => exact absurd h hc
  | mark =>
    rcases mem_append.mp h with h | h
    · exact absurd h hc
    · exact absurd (congrArg ColumnBinding.tableIndex (mem_singleton.mp h)) (hmark rfl)
  | _ => rfl

theorem joinRows_of_binary (hop : BinaryOp.copies op = true)
    (hset : ∀ k t n, op ≠ .setOperation k t n)
    (E : Execution) (L R : List ColumnBinding) :
    ∃ type m test, op.getColumnBindings L R = joinBindings type m L R ∧
      (type = .mark → m ∈ op.tableIndices) ∧
      (BinaryOp.transparent op .right = true → type ≠ .single) ∧
      op.rows E L R = joinRows type m L test := by
  cases op with
  | comparisonJoin type m _ | delimJoin type m _ | anyJoin type m _ =>
    refine ⟨type,m,_,rfl,?_,?_,rfl⟩
    · simp [BinaryOp.tableIndices]
    · rintro h rfl
      cases h
  | crossProduct => exact ⟨.inner,0,_,rfl,by simp,by simp,rfl⟩
  | setOperation k t n => exact absurd rfl (hset k t n)
  | other id pl pr t n => cases hop

theorem not_setOperation_of_side (h : sourceSide op L R c = some s) :
    ∀ k t n, op ≠ .setOperation k t n := by
  rintro k t n rfl
  cases h

theorem copies_of_transparent (h : BinaryOp.transparent op s = true) :
    BinaryOp.copies op = true := by
  cases op <;> first | rfl | cases h

variable {κ : ValueTest} {cs : List ColumnBinding} (f g : Side → List Row)

variable (hdisj : ∀ c ∈ L, c ∉ R) (hleft : ∀ c ∈ L, c.tableIndex ∉ op.tableIndices)
  (hright : ∀ c ∈ R, c.tableIndex ∉ op.tableIndices)
include hdisj hleft hright

/-- What an output row copies from a side is NULL, or comes from one of its rows. -/
theorem binaryRows_source (hop : BinaryOp.copies op = true)
    (ho : o ∈ op.rows E L R (f .left) (f .right)) (side : Side) :
    (∀ c ∈ op.getColumnBindings L R, sourceSide op L R c = some side → o c = .null) ∨
      ∃ r ∈ f side, ∀ c ∈ op.getColumnBindings L R, sourceSide op L R c = some side →
          o c = r c := by
  by_cases hset : ∃ k t n, op = .setOperation k t n
  · obtain ⟨k,t,n,rfl⟩ := hset
    exact .inl nofun
  push Not at hset
  obtain ⟨type,m,test,hb,hm,_,hrows⟩ := joinRows_of_binary hop hset E L R
  rw [hrows] at ho
  rw [hb]
  cases side with
  | left =>
    by_cases hshow : type.showsLeft = true
    · rcases joinRows_left_source hshow ho with h | ⟨l,hl,h⟩
      · exact .inl (fun c _ hc => h c (sourceSide_left hc))
      · refine .inr ⟨l,hl,fun c _ hc => h c (sourceSide_left hc) (fun ht he => ?_)⟩
        exact hleft c (sourceSide_left hc) (he ▸ hm ht)
    · exact .inl (fun c hv hc => absurd (showsLeft_of_mem hdisj (sourceSide_left hc) hv) hshow)
  | right =>
    by_cases hshow : type.showsRight = true
    · rcases joinRows_right_source hshow ho with h | ⟨r,hr,h⟩
      · exact .inl (fun c _ hc => h c (sourceSide_right hc).1)
      · exact .inr ⟨r,hr,fun c _ hc => h c (sourceSide_right hc).1⟩
    · refine .inl (fun c hv hc => absurd (showsRight_of_mem ?_ (sourceSide_right hc).1 hv) hshow)
      exact fun ht he => hright c (sourceSide_right hc).2 (he ▸ hm ht)

/-- Inputs that agree on a test of columns of one side have outputs that do. -/
theorem binaryRows_agree (hcs : cs ≠ []) (hop : BinaryOp.transparent op side = true)
    (hout : ∀ c ∈ cs, c ∈ op.getColumnBindings L R)
    (hside : ∀ c ∈ cs, sourceSide op L R c = some side)
    (hother : ∀ other, other ≠ side → f other = g other)
    (hf : (f side).filter (κ.on cs) = (g side).filter (κ.on cs)) :
    (op.rows E L R (f .left) (f .right)).filter (κ.on cs) =
      (op.rows E L R (g .left) (g .right)).filter (κ.on cs) := by
  obtain ⟨c₀,hc₀⟩ := exists_mem_of_ne_nil cs hcs
  obtain ⟨type,m,test,hb,hm,hsingle,hrows⟩ := joinRows_of_binary (copies_of_transparent hop)
    (not_setOperation_of_side (hside c₀ hc₀)) E L R
  rw [hrows]
  cases side with
  | left =>
    have hL : ∀ c ∈ cs, c ∈ L := fun c hc => sourceSide_left (hside c hc)
    have hfilter : ∀ ls rs, (joinRows type m L test ls rs).filter (κ.on cs) =
        (joinRows type m L test (ls.filter (κ.on cs)) rs).filter (κ.on cs) := by
      refine joinRows_filter_left (showsLeft_of_mem hdisj (hL c₀ hc₀) (hb ▸ hout c₀ hc₀))
        (fun l r => ?_) (κ.on_nullRow hcs) (fun ht v l => ?_)
      · exact congrArg κ.accepts (map_congr_left (fun c hc => if_pos (hL c hc)))
      · refine congrArg κ.accepts (map_congr_left (fun c hc => if_neg (fun he => ?_)))
        exact hleft c (hL c hc) (he ▸ hm ht)
    rw [hother .right nofun,hfilter,hf,← hfilter]
  | right =>
    have hR := fun c hc => sourceSide_right (hside c hc)
    have hfilter : ∀ ls rs, (joinRows type m L test ls rs).filter (κ.on cs) =
        (joinRows type m L test ls (rs.filter (κ.on cs))).filter (κ.on cs) := by
      refine joinRows_filter_right (showsRight_of_mem ?_ (hR c₀ hc₀).1 (hb ▸ hout c₀ hc₀))
        (hsingle hop) (fun l r => ?_) (κ.on_nullRow hcs)
      · exact fun ht he => hright c₀ (hR c₀ hc₀).2 (he ▸ hm ht)
      · exact congrArg κ.accepts (map_congr_left (fun c hc => if_neg (hR c hc).1))
    rw [hother .left nofun,hfilter,hf,← hfilter]

end Binary

end PredTrans.Transfer

import PredTrans.Plan.Eval

namespace PredTrans.Plan
open Library Bool Value
open List

/-! How dropping rows before an operator shows after it. A test looks at a row
through some of its columns and only accepts rows without NULL there. -/

/-- A test of column values that never accepts NULL. -/
structure ValueTest where
  accepts : List Value → Bool
  strict : ∀ vs, accepts vs = true → ∀ v ∈ vs, v ≠ .null

def ValueTest.on (κ : ValueTest) (cs : List ColumnBinding) (r : Row) : Bool := κ.accepts (cs.map r)

theorem ValueTest.ne_null {κ : ValueTest} (h : κ.on cs r = true) (hc : c ∈ cs) : r c ≠ .null :=
  κ.strict _ h _ (mem_map_of_mem hc)

theorem ValueTest.on_map (κ : ValueTest) (h : ∀ c ∈ cs, r c = r' (f c)) :
    κ.on cs r = κ.on (cs.map f) r' := by
  unfold ValueTest.on
  rw [map_map]
  exact congrArg κ.accepts (map_congr_left h)

theorem ValueTest.on_nullRow (κ : ValueTest) {cs : List ColumnBinding} (hcs : cs ≠ []) :
    κ.on cs nullRow = false := by
  obtain ⟨c,cs,rfl⟩ := exists_cons_of_ne_nil hcs
  by_contra h
  exact ValueTest.ne_null (by simpa using h) mem_cons_self rfl

section Aggregate

variable (I : Interpretation) (g a gs : Nat) (groups : List Expression)
  (aggregates functions : List Nat)

theorem groupKey_getD (set : List Nat) (row : Row) (i : Nat) :
    (groupKey I groups set row).getD i .null =
      match groups[i]? with
      | some e => if i ∈ set then e.eval I row else .null
      | none => .null := by
  unfold groupKey
  rw [getD_eq_getElem?_getD,getElem?_map,getElem?_zipIdx]
  cases groups[i]? <;> simp

/-- What the test of an output row says about its group key. -/
def keyTest (κ : ValueTest) (cs : List ColumnBinding) (key : List Value) : Bool :=
  κ.accepts (cs.map (fun c => key.getD c.columnIndex .null))

variable {κ : ValueTest} {cs : List ColumnBinding} {f : ColumnBinding → ColumnBinding}

theorem on_groupRow (hg : ∀ c ∈ cs, c.tableIndex = g) (set : List Nat) (key : List Value)
    (members : List Row) :
    κ.on cs (groupRow I g a gs aggregates functions set key members) = keyTest κ cs key := by
  unfold ValueTest.on keyTest
  congr 1
  refine map_congr_left (fun c hc => ?_)
  simp [groupRow,hg c hc]

theorem keyTest_groupKey (hsrc : ∀ c ∈ cs, groups[c.columnIndex]? = some (.boundColumnRef (f c)))
    (set : List Nat) (row : Row) :
    keyTest κ cs (groupKey I groups set row) =
      (κ.on (cs.map f) row && decide (∀ c ∈ cs, c.columnIndex ∈ set)) := by
  by_cases hset : ∀ c ∈ cs, c.columnIndex ∈ set
  · rw [decide_eq_true hset,Bool.and_true]
    refine κ.on_map (fun c hc => ?_)
    rw [groupKey_getD,hsrc c hc]
    exact if_pos (hset c hc)
  rw [decide_eq_false hset,Bool.and_false]
  push Not at hset
  obtain ⟨c,hc,hns⟩ := hset
  by_contra h
  have hacc : keyTest κ cs (groupKey I groups set row) = true := by simpa using h
  have hne := κ.strict _ hacc _ (mem_map_of_mem hc)
  rw [groupKey_getD] at hne
  cases hgc : groups[c.columnIndex]? with
  | none => simp [hgc] at hne
  | some e => simp [hgc,hns] at hne

theorem groupRows_filter (hcs : cs ≠ []) (hg : ∀ c ∈ cs, c.tableIndex = g)
    (hsrc : ∀ c ∈ cs, groups[c.columnIndex]? = some (.boundColumnRef (f c)))
    (rows : List Row) (set : List Nat) :
    (groupRows I g a gs groups aggregates functions rows set).filter (κ.on cs) =
      (groupRows I g a gs groups aggregates functions (rows.filter (κ.on (cs.map f))) set).filter
        (κ.on cs) := by
  unfold groupRows
  simp only [filter_map,Function.comp_def,on_groupRow I g a gs aggregates functions hg]
  cases hset : set.isEmpty with
  | true =>
    -- the one group of the empty set has only NULL keys
    have hnil : set = [] := List.isEmpty_iff.mp hset
    have hfalse : keyTest κ cs (groupKey I groups set nullRow) = false := by
      have hout : ¬ ∀ c ∈ cs, c.columnIndex ∈ set := by
        intro h
        obtain ⟨c,hc⟩ := exists_mem_of_ne_nil cs hcs
        exact absurd (h c hc) (by simp [hnil])
      rw [keyTest_groupKey I groups hsrc,decide_eq_false hout,Bool.and_false]
    simp [hfalse]
  | false =>
    have hkey : ∀ r r', groupKey I groups set r = groupKey I groups set r' →
        keyTest κ cs (groupKey I groups set r) = keyTest κ cs (groupKey I groups set r') :=
      fun r r' h => by rw [h]
    have himp : ∀ r, keyTest κ cs (groupKey I groups set r) = true → κ.on (cs.map f) r = true := by
      intro r hr
      rw [keyTest_groupKey I groups hsrc,and_eq_true] at hr
      exact hr.1
    have hkeys : ∀ rs : List Row,
        ((firstsBy (groupKey I groups set) rs).map (groupKey I groups set)).filter
          (keyTest κ cs) =
        ((firstsBy (groupKey I groups set)
          (rs.filter (fun r => keyTest κ cs (groupKey I groups set r)))).map
            (groupKey I groups set)) := by
      intro rs
      rw [filter_map,Function.comp_def,filter_firstsBy hkey]
    simp only [Bool.false_or,Bool.false_eq_true,if_false]
    rw [hkeys,hkeys,filter_filter_of_imp (fun r _ => himp r)]
    refine map_congr_left (fun key hk => ?_)
    obtain ⟨r,hr,rfl⟩ := mem_map.mp hk
    have htest := (mem_filter.mp (mem_of_firstsBy hr)).2
    rw [filter_filter_of_imp]
    intro r' _ hr'
    refine himp r' ?_
    rw [of_decide_eq_true hr']
    exact htest

end Aggregate

section Window

variable (I : Interpretation)

/-- Windows whose partitions the test cannot split see the same rows. -/
theorem windowRows_filter (hown : ∀ columns r, t (extendRow index columns r) = t r)
    (hpart : ∀ w ∈ ws, ∀ r r', partitionKey I w r = partitionKey I w r' → t r = t r')
    (all before rest : List Row) :
    (windowRows I index ws all before rest).filter t =
      windowRows I index ws (all.filter t) (before.filter t) (rest.filter t) := by
  have hrow : ∀ r before, t r = true →
      windowRow I index ws (all.filter t) (before.filter t) r =
          windowRow I index ws all before r := by
    intro r before hr
    unfold windowRow
    congr 1
    funext i
    cases hw : ws[i]? with
    | none => rfl
    | some w =>
      have himp : ∀ r', decide (partitionKey I w r' = partitionKey I w r) = true → t r' = true := by
        intro r' h
        rw [hpart w (mem_of_getElem? hw) r' r (of_decide_eq_true h),hr]
      simp only
      rw [filter_filter_of_imp (fun r' _ => himp r'),filter_filter_of_imp (fun r' _ => himp r')]
  induction rest generalizing before with
  | nil => rfl
  | cons r rest ih =>
    have ht : t (windowRow I index ws all before r) = t r := hown _ r
    cases hr : t r with
    | true =>
      simp only [windowRows,filter_cons,ht,hr,if_true,ih,filter_append,
        filter_nil,hrow r before hr]
    | false =>
      simp only [windowRows,filter_cons,ht,hr,false_eq_true,if_false,ih,
        filter_append,filter_nil,append_nil]

end Window

section Order

theorem sortRows_filter (order : RowOrder) (t : Row → Bool) (rows : List Row) :
    (sortRows order rows).filter t = sortRows order (rows.filter t) := by
  have : IsTrans Row (fun a b => order.le a b = true) := ⟨order.trans⟩
  have : Std.Total (fun a b : Row => order.le a b = true) := ⟨order.total⟩
  exact filter_insertionSort rows

theorem distinctRows_filter (I : Interpretation)
    (ht : ∀ r r', targets.map (Expression.eval I r) = targets.map (Expression.eval I r') →
      t r = t r')
    (order : Option Nat) (rows : List Row) :
    (distinctRows I targets order rows).filter t =
        distinctRows I targets order (rows.filter t) := by
  unfold distinctRows
  rw [filter_firstsBy ht]
  cases order with
  | none => rfl
  | some o => simp only [sortRows_filter]

end Order

section Join

variable {m : Nat} {left : List ColumnBinding} {test : Row → Row → Value} {t : Row → Bool}

def hits (test : Row → Row → Value) (l r : Row) : Bool := decide (test l r = .boolean true)

/-- The join types whose output rows show the columns of their left input. -/
def JoinType.showsLeft : JoinType → Bool
  | .rightSemi | .rightAnti => false
  | _ => true

def JoinType.showsRight : JoinType → Bool
  | .semi | .anti | .mark => false
  | _ => true

theorem joinRows_filter_left (htype : type.showsLeft = true)
    (hl : ∀ l r, t (combine left l r) = t l) (hnull : t nullRow = false)
    (hmark : type = .mark → ∀ v l, t (extendRow m v l) = t l) (ls rs : List Row) :
    (joinRows type m left test ls rs).filter t =
      (joinRows type m left test (ls.filter t) rs).filter t := by
  have hmatches : ∀ l : Row, ∀ o ∈ (rs.filter (hits test l)).map (combine left l), t o = t l := by
    intro l o ho
    obtain ⟨r,_,rfl⟩ := mem_map.mp ho
    exact hl l r
  have houter : ∀ l : Row, ∀ o ∈ (if rs.any (hits test l) then
      (rs.filter (hits test l)).map (combine left l) else [combine left l nullRow]), t o = t l := by
    intro l o ho
    split at ho
    · exact hmatches l o ho
    · rw [mem_singleton.mp ho]
      exact hl l nullRow
  have hunmatched : ∀ p : Row → Bool, ((rs.filter p).map (combine left nullRow)).filter t = [] := by
    intro p
    refine filter_eq_nil_iff.mpr (fun o ho => ?_)
    obtain ⟨r,_,rfl⟩ := mem_map.mp ho
    simp [hl,hnull]
  have htwice : (ls.filter t).filter t = ls.filter t := by simp
  have hflat : ∀ f : Row → List Row, (∀ l, ∀ o ∈ f l, t o = t l) →
      (ls.flatMap f).filter t = ((ls.filter t).flatMap f).filter t := by
    intro f hf
    rw [filter_flatMap_of_const fun l _ => hf l,filter_flatMap_of_const fun l _ => hf l,htwice]
  cases type with
  | inner => exact hflat _ hmatches
  | left => exact hflat _ houter
  | right =>
    simp only [joinRows,filter_append,hunmatched]
    exact congrArg (· ++ []) (hflat _ hmatches)
  | outer =>
    simp only [joinRows,filter_append,hunmatched]
    exact congrArg (· ++ []) (hflat _ houter)
  | semi | anti => simp only [joinRows,filter_filter,Bool.and_comm,Bool.and_self_left]
  | mark =>
    simp only [joinRows,filter_map,Function.comp_def,hmark rfl,htwice]
  | single =>
    simp only [joinRows,filter_map,Function.comp_def,hl,htwice]
  | rightSemi | rightAnti => cases htype

/-- A single join looks for the first match, so only its left side commutes. -/
theorem joinRows_filter_right (htype : type.showsRight = true) (hsingle : type ≠ .single)
    (hr : ∀ l r, t (combine left l r) = t r) (hnull : t nullRow = false) (ls rs : List Row) :
    (joinRows type m left test ls rs).filter t =
      (joinRows type m left test ls (rs.filter t)).filter t := by
  have hmatches : ∀ (l : Row) (p : Row → Bool), ((rs.filter p).map (combine left l)).filter t =
      (((rs.filter t).filter p).map (combine left l)).filter t := by
    intro l p
    simp only [filter_map,Function.comp_def,hr,filter_filter,Bool.and_comm,
      Bool.and_self_left]
  have houter : ∀ (l : Row) (rs' : List Row), (if rs'.any (hits test l) then
      (rs'.filter (hits test l)).map (combine left l) else [combine left l nullRow]).filter t =
      ((rs'.filter (hits test l)).map (combine left l)).filter t := by
    intro l rs'
    by_cases hany : rs'.any (hits test l) = true
    · rw [if_pos hany]
    · have hnone : rs'.filter (hits test l) = [] :=
        filter_eq_nil_iff.mpr (fun r h hh => hany (any_eq_true.mpr ⟨r,h,hh⟩))
      rw [if_neg hany,hnone]
      simp [hr,hnull]
  have hinner : (ls.flatMap (fun l => (rs.filter (hits test l)).map (combine left l))).filter t =
      (ls.flatMap (fun l => ((rs.filter t).filter (hits test l)).map
          (combine left l))).filter t := by
    simp only [filter_flatMap,hmatches _ (hits test _)]
  have hleft : (ls.flatMap (fun l => if rs.any (hits test l) then
        (rs.filter (hits test l)).map (combine left l) else [combine left l nullRow])).filter t =
      (ls.flatMap (fun l => if (rs.filter t).any (hits test l) then
        ((rs.filter t).filter (hits test l)).map (combine left l)
        else [combine left l nullRow])).filter t := by
    simp only [filter_flatMap,houter,hmatches _ (hits test _)]
  cases type with
  | inner => exact hinner
  | left => exact hleft
  | right =>
    simp only [joinRows,filter_append]
    exact congrArg₂ (· ++ ·) hinner (hmatches nullRow _)
  | outer =>
    simp only [joinRows,filter_append]
    exact congrArg₂ (· ++ ·) hleft (hmatches nullRow _)
  | rightSemi | rightAnti => simp only [joinRows,filter_filter,Bool.and_comm,Bool.and_self_left]
  | semi | anti | mark => cases htype
  | single => exact absurd rfl hsingle

/-- A row that pairs a left row with a right one, where either may be missing. -/
def Paired (left : List ColumnBinding) (ls rs : List Row) (o : Row) : Prop :=
  ∃ l r, (l ∈ ls ∨ l = nullRow) ∧ (r ∈ rs ∨ r = nullRow) ∧ o = combine left l r

theorem mem_joinRows (ho : o ∈ joinRows type m left test ls rs) :
    (type.showsRight = false ∧ o ∈ ls) ∨ (type.showsLeft = false ∧ o ∈ rs) ∨
      (type = .mark ∧ ∃ l ∈ ls, ∃ v, o = extendRow m v l) ∨ Paired left ls rs o := by
  have hinner : o ∈ ls.flatMap (fun l => (rs.filter (hits test l)).map (combine left l)) →
      Paired left ls rs o := by
    intro h
    obtain ⟨l,hl,h⟩ := mem_flatMap.mp h
    obtain ⟨r,hr,rfl⟩ := mem_map.mp h
    exact ⟨l,r,.inl hl,.inl (mem_filter.mp hr).1,rfl⟩
  have houter : o ∈ ls.flatMap (fun l => if rs.any (hits test l) then
      (rs.filter (hits test l)).map (combine left l) else [combine left l nullRow]) →
      Paired left ls rs o := by
    intro h
    obtain ⟨l,hl,h⟩ := mem_flatMap.mp h
    split at h
    · exact hinner (mem_flatMap.mpr ⟨l,hl,h⟩)
    · exact ⟨l,nullRow,.inl hl,.inr rfl,mem_singleton.mp h⟩
  have hunmatched : ∀ p : Row → Bool, o ∈ (rs.filter p).map (combine left nullRow) →
      Paired left ls rs o := by
    intro p h
    obtain ⟨r,hr,rfl⟩ := mem_map.mp h
    exact ⟨nullRow,r,.inr rfl,.inl (mem_filter.mp hr).1,rfl⟩
  cases type with
  | inner => exact .inr (.inr (.inr (hinner ho)))
  | left => exact .inr (.inr (.inr (houter ho)))
  | right => exact .inr (.inr (.inr ((mem_append.mp ho).elim hinner (hunmatched _))))
  | outer => exact .inr (.inr (.inr ((mem_append.mp ho).elim houter (hunmatched _))))
  | semi | anti => exact .inl ⟨rfl,(mem_filter.mp ho).1⟩
  | rightSemi | rightAnti => exact .inr (.inl ⟨rfl,(mem_filter.mp ho).1⟩)
  | mark =>
    obtain ⟨l,hl,rfl⟩ := mem_map.mp ho
    exact .inr (.inr (.inl ⟨rfl,l,hl,_,rfl⟩))
  | single =>
    obtain ⟨l,hl,rfl⟩ := mem_map.mp ho
    refine .inr (.inr (.inr ⟨l,(rs.find? (hits test l)).getD nullRow,.inl hl,?_,rfl⟩))
    cases hf : rs.find? (hits test l) with
    | none => exact .inr rfl
    | some r => exact .inl (mem_of_find?_eq_some hf)

theorem joinRows_left_source (htype : type.showsLeft = true)
    (ho : o ∈ joinRows type m left test ls rs) :
    (∀ c ∈ left, o c = .null) ∨
      ∃ l ∈ ls, ∀ c ∈ left, (type = .mark → c.tableIndex ≠ m) → o c = l c := by
  rcases mem_joinRows ho with ⟨-,h⟩ | ⟨h,-⟩ | ⟨rfl,l,hl,v,rfl⟩ | ⟨l,r,hl | rfl,-,rfl⟩
  · exact .inr ⟨o,h,fun _ _ _ => rfl⟩
  · rw [htype] at h
    cases h
  · exact .inr ⟨l,hl,fun c _ hm => if_neg (hm rfl)⟩
  · exact .inr ⟨l,hl,fun c hc _ => if_pos hc⟩
  · exact .inl (fun c hc => if_pos hc)

theorem joinRows_right_source (htype : type.showsRight = true)
    (ho : o ∈ joinRows type m left test ls rs) :
    (∀ c, c ∉ left → o c = .null) ∨ ∃ r ∈ rs, ∀ c, c ∉ left → o c = r c := by
  rcases mem_joinRows ho with ⟨h,-⟩ | ⟨-,h⟩ | ⟨rfl,-⟩ | ⟨l,r,-,hr | rfl,rfl⟩
  · rw [htype] at h
    cases h
  · exact .inr ⟨o,h,fun _ _ => rfl⟩
  · cases htype
  · exact .inr ⟨r,hr,fun c hc => if_neg hc⟩
  · exact .inl (fun c hc => if_neg hc)

/-- The types for which right rows without a match leave no trace. -/
def JoinType.reducesRight : JoinType → Bool
  | .inner | .left | .semi | .rightSemi => true
  | _ => false

def JoinType.reducesLeft : JoinType → Bool
  | .inner | .right | .semi | .rightSemi => true
  | _ => false

theorem filter_hits_right (h : ∀ r, hits test l r = true → t r = true) (rs : List Row) :
    (rs.filter t).filter (hits test l) = rs.filter (hits test l) :=
  filter_filter_of_imp (fun r _ => h r)

theorem any_filter_of_imp (h : ∀ r, p r = true → t r = true) (rs : List Row) :
    (rs.filter t).any p = rs.any p := by
  rw [Bool.eq_iff_iff,any_eq_true,any_eq_true]
  constructor
  · rintro ⟨r,hr,hp⟩
    exact ⟨r,(mem_filter.mp hr).1,hp⟩
  · rintro ⟨r,hr,hp⟩
    exact ⟨r,mem_filter.mpr ⟨hr,h r hp⟩,hp⟩

theorem joinRows_reduce_right (htype : type.reducesRight = true)
    (h : ∀ l ∈ ls, ∀ r, hits test l r = true → t r = true) (rs : List Row) :
    joinRows type m left test ls (rs.filter t) = joinRows type m left test ls rs := by
  have hfilter : ∀ l ∈ ls, (rs.filter t).filter (hits test l) = rs.filter (hits test l) :=
    fun l hl => filter_hits_right (h l hl) rs
  have hany : ∀ l ∈ ls, (rs.filter t).any (hits test l) = rs.any (hits test l) :=
    fun l hl => any_filter_of_imp (h l hl) rs
  cases type with
  | inner =>
    refine flatMap_congr (fun l hl => ?_)
    exact congrArg (List.map (combine left l)) (hfilter l hl)
  | left =>
    refine flatMap_congr (fun l hl => ?_)
    change (if (rs.filter t).any (hits test l) then _ else _) =
      (if rs.any (hits test l) then _ else _)
    rw [hany l hl]
    split
    · exact congrArg (List.map (combine left l)) (hfilter l hl)
    · rfl
  | semi => exact filter_congr hany
  | rightSemi =>
    refine filter_filter_of_imp (fun r _ hr => ?_)
    obtain ⟨l,hl,hhit⟩ := any_eq_true.mp hr
    exact h l hl r hhit
  | _ => cases htype

theorem joinRows_reduce_left (htype : type.reducesLeft = true)
    (h : ∀ r ∈ rs, ∀ l, hits test l r = true → t l = true) (ls : List Row) :
    joinRows type m left test (ls.filter t) rs = joinRows type m left test ls rs := by
  have hinner : (ls.filter t).flatMap (fun l => (rs.filter (hits test l)).map (combine left l)) =
      ls.flatMap (fun l => (rs.filter (hits test l)).map (combine left l)) := by
    refine flatMap_filter_of_nil (fun l _ hl => ?_)
    rw [map_eq_nil_iff,filter_eq_nil_iff]
    intro r hr hhit
    rw [h r hr l hhit] at hl
    cases hl
  have hany : ∀ r ∈ rs, (ls.filter t).any (fun l => hits test l r) =
      ls.any (fun l => hits test l r) :=
    fun r hr => any_filter_of_imp (h r hr) ls
  cases type with
  | inner => exact hinner
  | right =>
    refine congrArg₂ (· ++ ·) hinner (congrArg (List.map (combine left nullRow)) ?_)
    exact filter_congr (fun r hr => congrArg (!·) (hany r hr))
  | semi =>
    refine filter_filter_of_imp (fun l _ hl => ?_)
    obtain ⟨r,hr,hhit⟩ := any_eq_true.mp hl
    exact h r hr l hhit
  | rightSemi => exact filter_congr hany
  | _ => cases htype

theorem Value.connective_eq_true {a b : Value} :
    (a.or b = .boolean true ↔ a = .boolean true ∨ b = .boolean true) ∧
      (a.and b = .boolean true ↔ a = .boolean true ∧ b = .boolean true) := by
  cases a with
  | boolean a => cases b with
    | boolean b => cases a <;> cases b <;> simp [or,and]
    | _ => cases a <;> simp [or,and]
  | _ => cases b with
    | boolean b => cases b <;> simp [or,and]
    | _ => simp [or,and]

/-- The marker is TRUE exactly for left rows with a match. -/
theorem markValue_eq_true : markValue test rs l = .boolean true ↔ rs.any (hits test l) = true := by
  induction rs with
  | nil => simp [markValue]
  | cons r rs ih =>
    change (test l r).or (markValue test rs l) = _ ↔ _
    rw [connective_eq_true.1,ih,any_cons,or_eq_true,hits,decide_eq_true_iff]

theorem conditionsTest_eq_true :
    conditionsTest I cs l r = .boolean true ↔ ∀ c ∈ cs, c.holds I l r = .boolean true := by
  induction cs with
  | nil => simp [conditionsTest]
  | cons c cs ih =>
    change (c.holds I l r).and (conditionsTest I cs l r) = _ ↔ _
    rw [connective_eq_true.2,ih,forall_mem_cons]

theorem compareValues_equal : compareValues .equal a b = .boolean true ↔ a = b ∧ a ≠ .null := by
  change (if a = .null ∨ b = .null then null else .boolean (decide (a = b))) = _ ↔ _
  split
  · rename_i h
    simp only [reduceCtorEq,false_iff]
    rintro ⟨rfl,hne⟩
    exact hne (h.elim id id)
  · rename_i h
    push Not at h
    simp [h.1]

theorem markRows_reduce_right (hp : ∀ o, p o = true → o ⟨m, 0⟩ = .boolean true)
    (h : ∀ l ∈ ls, ∀ r, hits test l r = true → t r = true) (rs : List Row) :
    (joinRows .mark m left test ls (rs.filter t)).filter p =
      (joinRows .mark m left test ls rs).filter p := by
  induction ls with
  | nil => rfl
  | cons l ls ih =>
    have ih := ih (forall_mem_cons.mp h).2
    have hany := any_filter_of_imp (h l mem_cons_self) rs
    simp only [joinRows,map_cons,filter_cons] at ih ⊢
    rw [ih]
    have hmarker : ∀ rs' : List Row, p (extendRow m (fun _ => markValue test rs' l) l) = true →
        markValue test rs' l = .boolean true := by
      intro rs' hrs
      have := hp _ hrs
      rwa [extendRow,if_pos rfl] at this
    by_cases hm : rs.any (hits test l) = true
    · rw [markValue_eq_true.mpr (hany.trans hm),markValue_eq_true.mpr hm]
    · rw [if_neg (fun hc => hm (hany ▸ markValue_eq_true.mp (hmarker _ hc))),
        if_neg (fun hc => hm (markValue_eq_true.mp (hmarker _ hc)))]

theorem markRows_reduce_left (hp : ∀ o, p o = true → o ⟨m, 0⟩ = .boolean true)
    (h : ∀ r ∈ rs, ∀ l, hits test l r = true → t l = true) (ls : List Row) :
    (joinRows .mark m left test (ls.filter t) rs).filter p =
      (joinRows .mark m left test ls rs).filter p := by
  simp only [joinRows,filter_map]
  rw [filter_filter_of_imp]
  intro l _ hl
  have hmark : markValue test rs l = .boolean true := by simpa [extendRow] using hp _ hl
  obtain ⟨r,hr,hhit⟩ := any_eq_true.mp (markValue_eq_true.mp hmark)
  exact h r hr l hhit

end Join

end PredTrans.Plan

import PredTrans.Plan.Eval

/-! Of several groups that refer to one column, `RemoveDuplicateGroups` keeps the first and sends
the references to the others to it, also under a grouping set that holds only one of them. -/

namespace PredTrans.Plan.DuplicateGroups
open Library List

/-- The first group that refers to the column of group `i`, which `duplicate_map` holds. -/
def firstGroup (groups : List Expression) (i : Nat) : Nat :=
  match groups[i]? with
  | some (.boundColumnRef b) => groups.idxOf (.boundColumnRef b)
  | _ => i

/-- The remaining and the removed group of every duplicate. -/
def duplicateGroups (groups : List Expression) : List (Nat × Nat) :=
  (range groups.length).filterMap fun i =>
    if firstGroup groups i = i then none else some (firstGroup groups i, i)

structure GroupState where
  groups : List Expression
  groupingSets : List (List Nat)
  /-- The column index of the new binding of each group. -/
  groupBindingMap : Nat → Nat

def removeFromSet (remaining removed : Nat) (set : List Nat) : List Nat :=
  let set := if removed ∈ set then (set.filter (· ≠ removed)).insert remaining else set
  let reinsert := set.filter (· > removed)
  set.filter (¬ · > removed) ∪ reinsert.map (· - 1)

def removeDuplicate (s : GroupState) (duplicate : Nat × Nat) : GroupState where
  groups := s.groups.eraseIdx duplicate.2
  groupingSets := s.groupingSets.map (removeFromSet duplicate.1 duplicate.2)
  groupBindingMap i :=
    let column := if i = duplicate.2 then duplicate.1 else s.groupBindingMap i
    if column > duplicate.2 then column - 1 else column

/-- The duplicates are removed from the back. -/
def visitAggregate (groups : List Expression) (groupingSets : List (List Nat))
    (groupingFunctions : List Nat) : GroupState :=
  if groupingFunctions ≠ [] then ⟨groups, groupingSets, id⟩
  else ((duplicateGroups groups).mergeSort fun l r => r.2 ≤ l.2).foldl removeDuplicate
    ⟨groups, groupingSets, id⟩

variable {groups : List Expression} {sets : List (List Nat)} {s : GroupState} {d : Nat × Nat}
  {set : List Nat}

/-- Where a removal moves a group. -/
def shift (d : Nat × Nat) (i : Nat) : Nat :=
  if i = d.2 then d.1 else if i > d.2 then i - 1 else i

theorem shift_surjective (d : Nat × Nat) (j : Nat) : ∃ i, shift d i = j := by
  by_cases hj : j < d.2
  · exact ⟨j,by unfold shift; split_ifs <;> omega⟩
  · exact ⟨j + 1,by unfold shift; split_ifs <;> omega⟩

theorem getElem?_shift {l : List α} (h : d.1 < d.2) (hsame : l[d.1]? = l[d.2]?) (i : Nat) :
    (l.eraseIdx d.2)[shift d i]? = l[i]? := by
  rw [getElem?_eraseIdx]
  unfold shift
  split_ifs with hi <;> try omega
  · rw [hi,hsame]
  · congr 1
    omega
  · rfl

theorem mem_removeFromSet (h : d.1 < d.2) :
    j ∈ removeFromSet d.1 d.2 l ↔ ∃ i ∈ l, shift d i = j := by
  simp only [removeFromSet,shift,mem_union_iff,mem_filter,mem_map]
  split
  · simp only [mem_insert_iff,mem_filter]
    grind
  · grind

theorem firstGroup_of_ref (h : groups[i]? = some (.boundColumnRef b)) :
    firstGroup groups i = groups.idxOf (.boundColumnRef b) := by
  simp [firstGroup,h]

/-- A group that is not the first of its column. -/
theorem firstGroup_spec (h : firstGroup groups i ≠ i) : ∃ b, groups[i]? = some (.boundColumnRef b) ∧
    groups[firstGroup groups i]? = some (.boundColumnRef b) ∧ firstGroup groups i < i := by
  obtain ⟨b,hb⟩ : ∃ b, groups[i]? = some (.boundColumnRef b) := by
    unfold firstGroup at h
    split at h
    · exact ⟨_,by assumption⟩
    · exact absurd rfl h
  obtain ⟨hi,hget⟩ := List.getElem?_eq_some_iff.mp hb
  have hle : groups.idxOf (.boundColumnRef b) ≤ i := by
    by_contra hlt
    have := not_of_lt_findIdx (not_le.mp hlt)
    simp [hget] at this
  rw [firstGroup_of_ref hb] at h ⊢
  refine ⟨b,hb,?_,by omega⟩
  exact List.getElem?_eq_some_iff.mpr ⟨by omega,getElem_idxOf (by omega)⟩

theorem firstGroup_firstGroup : firstGroup groups (firstGroup groups i) = firstGroup groups i := by
  by_cases h : firstGroup groups i = i
  · rw [h,h]
  · obtain ⟨b,hi,hfirst,-⟩ := firstGroup_spec h
    rw [firstGroup_of_ref hfirst,firstGroup_of_ref hi]

theorem mem_duplicateGroups :
    d ∈ duplicateGroups groups ↔ firstGroup groups d.2 = d.1 ∧ d.1 ≠ d.2 := by
  obtain ⟨f,i⟩ := d
  simp only [duplicateGroups,mem_filterMap,mem_range]
  constructor
  · rintro ⟨j,-,hj⟩
    split at hj
    · cases hj
    · cases hj
      exact ⟨rfl,by assumption⟩
  · rintro ⟨rfl,hne⟩
    obtain ⟨b,hi,-⟩ := firstGroup_spec hne
    exact ⟨i,(List.getElem?_eq_some_iff.mp hi).1,if_neg hne⟩

/-- Where a group stands after the removal of some duplicates, before any shift. -/
def kept (groups : List Expression) (ds : List (Nat × Nat)) (i : Nat) : Nat :=
  if (firstGroup groups i, i) ∈ ds then firstGroup groups i else i

/-- What holds after the removal of some duplicates from the back. -/
structure Removed (groups : List Expression) (sets : List (List Nat)) (ds : List (Nat × Nat))
    (s : GroupState) : Prop where
  below : ∀ i, (∀ d ∈ ds, i < d.2) → s.groupBindingMap i = i
  merged : ∀ i j, s.groupBindingMap i = s.groupBindingMap j ↔ kept groups ds i = kept groups ds j
  same : ∀ i, s.groups[s.groupBindingMap i]? = groups[i]?
  onto : ∀ j, ∃ i, s.groupBindingMap i = j
  sets : Forall₂ (fun set set' => ∀ j, j ∈ set' ↔ ∃ i ∈ set, s.groupBindingMap i = j) sets
    s.groupingSets

theorem Removed.step (h : Removed groups sets ds s) (hd : d ∈ duplicateGroups groups)
    (hlt : ∀ e ∈ ds, d.2 < e.2) : Removed groups sets (d :: ds) (removeDuplicate s d) := by
  obtain ⟨hfirst,hne⟩ := mem_duplicateGroups.mp hd
  obtain ⟨b,hremoved,hremaining,hless⟩ := firstGroup_spec (hfirst ▸ hne)
  rw [hfirst] at hremaining hless
  have hself : s.groupBindingMap d.2 = d.2 := h.below _ hlt
  have hfirst' : s.groupBindingMap d.1 = d.1 := h.below _ fun e he => hless.trans (hlt e he)
  have hstays : ∀ i ≤ d.2, kept groups ds i = i := fun i hi =>
    if_neg fun hmem => (hlt _ hmem).not_ge hi
  -- no other group has taken the place of the one that is removed
  have honly : ∀ i, s.groupBindingMap i = d.2 ↔ i = d.2 := by
    intro i
    refine ⟨fun he => ?_,fun he => he ▸ hself⟩
    have hk := (h.merged i d.2).mp (he.trans hself.symm)
    rw [hstays _ le_rfl,kept] at hk
    split at hk
    · have := @firstGroup_firstGroup groups i
      rw [hk,hfirst] at this
      exact absurd this hne
    · exact hk
  have hmap : ∀ i, (removeDuplicate s d).groupBindingMap i = shift d (s.groupBindingMap i) := by
    intro i
    by_cases hi : i = d.2
    · simp [removeDuplicate,shift,hi,hself,hless.le]
    · simp [removeDuplicate,shift,hi,honly]
  have hkept : ∀ i, kept groups (d :: ds) i = if i = d.2 then d.1 else kept groups ds i := by
    intro i
    unfold kept
    grind
  constructor
  · intro i hi
    obtain ⟨hi,hrest⟩ := forall_mem_cons.mp hi
    rw [hmap,h.below i hrest]
    unfold shift
    split_ifs <;> omega
  · intro i j
    have hremaining : ∀ i, s.groupBindingMap i = d.1 ↔ kept groups ds i = d.1 := fun i => by
      simpa [hfirst',hstays d.1 hless.le] using h.merged i d.1
    simp only [hmap,hkept,shift,honly]
    have := h.merged i j
    have := hremaining i
    have := hremaining j
    have := honly i
    have := honly j
    split_ifs <;> omega
  · intro i
    rw [hmap]
    refine (getElem?_shift hless ?_ _).trans (h.same i)
    rw [← hfirst',h.same,← hself,h.same,hremaining,hremoved]
  · intro j
    obtain ⟨v,rfl⟩ := shift_surjective d j
    obtain ⟨i,rfl⟩ := h.onto v
    exact ⟨i,hmap i⟩
  · refine forall₂_map_right_iff.mpr (h.sets.imp fun set set' hset j => ?_)
    simp only [mem_removeFromSet hless,hset,hmap]
    grind

theorem Removed.run {ds : List (Nat × Nat)} (h : Removed groups sets done s)
    (hds : ∀ d ∈ ds, d ∈ duplicateGroups groups)
    (hsorted : ds.Pairwise fun l r => r.2 < l.2) (hdone : ∀ d ∈ ds, ∀ e ∈ done, d.2 < e.2) :
    Removed groups sets (ds.reverse ++ done) (ds.foldl removeDuplicate s) := by
  induction ds generalizing done s with
  | nil => exact h
  | cons d ds ih =>
    obtain ⟨hlt,hsorted⟩ := pairwise_cons.mp hsorted
    obtain ⟨hd,hds⟩ := forall_mem_cons.mp hds
    obtain ⟨hfirst,hdone⟩ := forall_mem_cons.mp hdone
    rw [reverse_cons,append_assoc,foldl_cons]
    refine ih (h.step hd hfirst) hds hsorted fun e he => ?_
    exact forall_mem_cons.mpr ⟨hlt e he,hdone e he⟩

theorem duplicateGroups_sorted :
    ((duplicateGroups groups).mergeSort fun l r => r.2 ≤ l.2).Pairwise fun l r => r.2 < l.2 := by
  have hne : (duplicateGroups groups).Pairwise fun l r => l.2 ≠ r.2 := by
    refine pairwise_lt_range.filterMap _ fun i j hij d hd e he => ?_
    split at hd <;> cases hd
    split at he <;> cases he
    exact hij.ne
  have hperm := mergeSort_perm (duplicateGroups groups) fun l r => r.2 ≤ l.2
  have hsorted : ((duplicateGroups groups).mergeSort fun l r => r.2 ≤ l.2).Pairwise fun l r =>
      decide (r.2 ≤ l.2) = true := pairwise_mergeSort (by grind) (by grind) _
  refine (hsorted.and ((hperm.pairwise_iff Ne.symm).mpr hne)).imp fun {l r} h => ?_
  exact lt_of_le_of_ne (of_decide_eq_true h.1) h.2.symm

/-- In the end groups share a place exactly when they refer to one column. -/
theorem removed_visitAggregate (groups : List Expression) (sets : List (List Nat)) :
    ∃ ds, Removed groups sets ds (visitAggregate groups sets []) ∧
      ∀ i, kept groups ds i = firstGroup groups i := by
  have hperm := mergeSort_perm (duplicateGroups groups) fun l r => r.2 ≤ l.2
  have hstart : Removed groups sets [] ⟨groups,sets,id⟩ := by
    refine ⟨by simp,by simp [kept],by simp,fun j => ⟨j,rfl⟩,?_⟩
    exact forall₂_same.mpr fun set _ j => by simp
  refine ⟨_,hstart.run (fun d => hperm.mem_iff.mp) duplicateGroups_sorted (by simp),fun i => ?_⟩
  simp only [kept,append_nil,mem_reverse,hperm.mem_iff,mem_duplicateGroups]
  grind

/-- The set holds all references to a column, or none. -/
def Together (groups : List Expression) (set : List Nat) : Prop :=
  ∀ i, i ∈ set ↔ firstGroup groups i ∈ set

theorem together_range : Together groups (range groups.length) := by
  intro i
  by_cases h : firstGroup groups i = i
  · rw [h]
  · obtain ⟨b,hi,hfirst,-⟩ := firstGroup_spec h
    simp [(List.getElem?_eq_some_iff.mp hi).1,(List.getElem?_eq_some_iff.mp hfirst).1]

theorem together_effectiveSets : (∀ set ∈ effectiveSets groups sets, Together groups set) ↔
    ∀ set ∈ sets, Together groups set := by
  cases sets with
  | nil => simp [effectiveSets,together_range]
  | cons set sets => simp [effectiveSets]

theorem Removed.effectiveSets (h : Removed groups sets ds s) :
    Forall₂ (fun set set' => ∀ j, j ∈ set' ↔ ∃ i ∈ set, s.groupBindingMap i = j)
      (effectiveSets groups sets) (effectiveSets s.groups s.groupingSets) := by
  obtain ⟨groups',sets',m⟩ := s
  have hsets := h.sets
  cases hsets with
  | cons hset hsets => exact .cons hset hsets
  | nil =>
    refine .cons (fun j => ?_) .nil
    have hlength : ∀ i, m i < groups'.length ↔ i < groups.length := by
      intro i
      rw [← not_le,← not_le,← getElem?_eq_none_iff,← getElem?_eq_none_iff,h.same i]
    obtain ⟨i,rfl⟩ := h.onto j
    simp only [mem_range,hlength]
    refine ⟨fun hi => ⟨i,hi,rfl⟩,?_⟩
    rintro ⟨k,hk,he⟩
    rwa [← hlength,← he,hlength]

section Values

variable (I : Interpretation)

theorem getD_groupKey (groups : List Expression) (set : List Nat) (r : Row) (i : Nat) :
    (groupKey I groups set r).getD i .null =
      if i ∈ set then groups[i]?.elim .null (Expression.eval I r) else .null := by
  simp only [groupKey,getD_eq_getElem?_getD,getElem?_map,getElem?_zipIdx]
  cases groups[i]? <;> simp

theorem groupKey_eq_iff {r r' : Row} : groupKey I groups set r = groupKey I groups set r' ↔
    ∀ i, (groupKey I groups set r).getD i .null = (groupKey I groups set r').getD i .null := by
  refine ⟨fun h i => by rw [h],fun h => ext_getElem (by simp [groupKey]) fun i hi hi' => ?_⟩
  simpa [getD_eq_getElem?_getD,hi,hi'] using h i

theorem groupRows_eq_map (g a gs : Nat) (groups : List Expression) (aggregates functions : List Nat)
    (rows : List Row) (set : List Nat) : groupRows I g a gs groups aggregates functions rows set =
      (if set.isEmpty then [nullRow] else firstsBy (groupKey I groups set) rows).map fun r =>
        groupRow I g a gs aggregates functions set (groupKey I groups set r) (rows.filter fun q =>
          set.isEmpty || groupKey I groups set q = groupKey I groups set r) := by
  unfold groupRows
  split <;> simp

/-- Every old reference to a group yields what it did, and all else is as it was. -/
def SameOutput (g : Nat) (groupBindingMap : Nat → Nat) (rows rows' : List Row) : Prop :=
  Forall₂ (fun row row' => (∀ i, row' ⟨g, groupBindingMap i⟩ = row ⟨g, i⟩) ∧
    ∀ b, b.tableIndex ≠ g → row' b = row b) rows rows'

theorem Removed.sameOutput (h : Removed groups sets ds s)
    (hall : ∀ i, kept groups ds i = firstGroup groups i) (ht : Together groups set)
    (hset : ∀ j, j ∈ set' ↔ ∃ i ∈ set, s.groupBindingMap i = j) (g a gs : Nat)
    (aggregates : List Nat) (rows : List Row) :
    SameOutput g s.groupBindingMap (groupRows I g a gs groups aggregates [] rows set)
      (groupRows I g a gs s.groups aggregates [] rows set') := by
  have hmem : ∀ i, s.groupBindingMap i ∈ set' ↔ i ∈ set := by
    intro i
    rw [hset]
    refine ⟨?_,fun hi => ⟨i,hi,rfl⟩⟩
    rintro ⟨k,hk,he⟩
    rw [h.merged,hall,hall] at he
    rwa [ht i,← he,← ht k]
  have hvalue : ∀ r i, (groupKey I s.groups set' r).getD (s.groupBindingMap i) .null =
      (groupKey I groups set r).getD i .null := by
    intro r i
    simp only [getD_groupKey,h.same,hmem]
  have hkey : ∀ r r', groupKey I s.groups set' r = groupKey I s.groups set' r' ↔
      groupKey I groups set r = groupKey I groups set r' := by
    intro r r'
    simp only [groupKey_eq_iff,← hvalue]
    refine ⟨fun he i => he _,fun he j => ?_⟩
    obtain ⟨i,rfl⟩ := h.onto j
    exact he i
  have hempty : set'.isEmpty = set.isEmpty := by
    rw [Bool.eq_iff_iff,List.isEmpty_iff,List.isEmpty_iff]
    simp only [eq_nil_iff_forall_not_mem,hset]
    grind
  simp only [SameOutput,groupRows_eq_map,hempty,hkey,firstsBy_congr hkey,forall₂_map_left_iff,
    forall₂_map_right_iff]
  refine forall₂_same.mpr fun r _ => ⟨fun i => ?_,fun b hb => ?_⟩
  · simpa [groupRow] using hvalue r i
  · simp [groupRow,hb]

end Values

/-- A row of ones tells a reference in the set from one outside it. -/
theorem together_of_sameOutput (hmap : ∀ i, m i = m (firstGroup groups i))
    (h : SameOutput g m (groupRows I g a gs groups aggregates [] [fun _ => .integer 1] set) rows') :
    Together groups set := by
  intro i
  by_cases hi : firstGroup groups i = i
  · rw [hi]
  obtain ⟨b,hb,hfirst,-⟩ := firstGroup_spec hi
  have hrow := ((forall₂_and_left (p := fun row => row ⟨g,i⟩ = row ⟨g,firstGroup groups i⟩) _ _).mp
    (h.imp fun row row' hr => ⟨by rw [← hr.1,← hr.1,← hmap],hr⟩)).1
  cases set with
  | nil => simp
  | cons j set =>
    simp only [groupRows_eq_map,firstsBy] at hrow
    have hone := hrow _ (mem_map_of_mem (a := fun _ => .integer 1) (by simp))
    simp only [groupRow,if_true,getD_groupKey,hb,hfirst] at hone
    split_ifs at hone <;> simp_all [Expression.eval]

/-- No column is referred to by two groups. -/
def NoRepeatedRef (groups : List Expression) : Prop := ∀ (i j : Nat) (b : ColumnBinding),
  groups[i]? = some (.boundColumnRef b) → groups[j]? = some (.boundColumnRef b) → i = j

/-- No column stays a group twice, and the output stays what it was exactly when every grouping set
holds all references to a column or none. -/
theorem visitAggregate_sameOutput_iff (groups : List Expression) (sets : List (List Nat)) :
    let s := visitAggregate groups sets []
    NoRepeatedRef s.groups ∧
    ((∀ I g a gs aggregates rows, Forall₂ (fun set set' => SameOutput g s.groupBindingMap
        (groupRows I g a gs groups aggregates [] rows set)
        (groupRows I g a gs s.groups aggregates [] rows set'))
      (effectiveSets groups sets) (effectiveSets s.groups s.groupingSets)) ↔
      ∀ set ∈ sets, Together groups set) := by
  intro s
  obtain ⟨ds,h,hall⟩ := removed_visitAggregate groups sets
  have hmap : ∀ i, s.groupBindingMap i = s.groupBindingMap (firstGroup groups i) := by
    intro i
    rw [h.merged,hall,hall,firstGroup_firstGroup]
  rw [← together_effectiveSets]
  refine ⟨fun i j b hi hj => ?_,fun hsame => ?_,fun ht I g a gs aggregates rows => ?_⟩
  · obtain ⟨i,rfl⟩ := h.onto i
    obtain ⟨j,rfl⟩ := h.onto j
    rw [h.same] at hi hj
    rw [hmap i,hmap j,firstGroup_of_ref hi,firstGroup_of_ref hj]
  · exact ((forall₂_and_left _ _).mp ((hsame default 0 1 2 [] [fun _ => .integer 1]).imp
      fun set set' hs => ⟨together_of_sameOutput hmap hs,hs⟩)).1
  · exact ((forall₂_and_left _ _).mpr ⟨ht,h.effectiveSets⟩).imp fun set set' hs =>
      h.sameOutput I hall hs.1 hs.2 g a gs aggregates rows

/-- Under the set of the first of two references the second yielded NULL, and then the column. -/
theorem visitAggregate_half_set :
    let groups := [Expression.boundColumnRef ⟨0, 0⟩, .boundColumnRef ⟨0, 0⟩]
    let s := visitAggregate groups [[0]] []
    s.groups = [.boundColumnRef ⟨0, 0⟩] ∧ s.groupingSets = [[0]] ∧ s.groupBindingMap 1 = 0 ∧
      ((groupRows default 1 2 3 groups [] [] [fun _ => .integer 1] [0]).map (· ⟨1, 1⟩) = [.null]) ∧
      (groupRows default 1 2 3 s.groups [] [] [fun _ => .integer 1] [0]).map (· ⟨1, 0⟩) =
        [.integer 1] := by
  intro groups s
  have hdup : duplicateGroups groups = [(0, 1)] := by decide
  have hs : s = removeDuplicate ⟨groups,[[0]],id⟩ (0, 1) := by
    simp [s,visitAggregate,hdup]
  rw [hs]
  decide

end PredTrans.Plan.DuplicateGroups

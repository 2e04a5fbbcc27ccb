import PredTrans.Window.RangeFrames

/-! The masks of a window partition (`BuildPartition` of physical_window.cpp and `ComputeMasks` of
partition_state.cpp). Over sorted rows they mark where partitions and peers begin. -/

namespace PredTrans.Window

open Library Function
open List hiding prev

namespace ValidityMask

def entryCount (count : Nat) : Nat := (count + (bitsPerValue - 1)) / bitsPerValue

/-- `Initialize` and `SetAllInvalid`; the bits behind the last row stay set. -/
def allInvalid (count : Nat) : ValidityMask where
  validityMask := some fun entryIdx =>
    if entryIdx + 1 < entryCount count then 0
    else if entryIdx + 1 = entryCount count then
      if count % bitsPerValue = 0 then 0 else BitVec.allOnes 64 <<< (count % bitsPerValue)
    else BitVec.allOnes 64

def setValidUnsafe (mask : ValidityMask) (rowIdx : Nat) : ValidityMask where
  validityMask := mask.validityMask.map fun entries =>
    update entries (rowIdx / bitsPerValue)
      (entries (rowIdx / bitsPerValue) ||| 1#64 <<< (rowIdx % bitsPerValue))

theorem rowIsValid_allInvalid {row count : Nat} (h : row < count) :
    (allInvalid count).rowIsValid row = false := by
  unfold rowIsValid getValidityEntry allInvalid entryCount bitsPerValue
  dsimp only
  split
  · simp
  split
  · split
    · simp
    · rw [BitVec.getLsbD_shiftLeft]
      have hlt : row % 64 < count % 64 := by omega
      simp [hlt]
  · omega

theorem rowIsValid_setValidUnsafe {mask : ValidityMask} (hmask : mask.allValid = false)
    (rowIdx row : Nat) :
    (mask.setValidUnsafe rowIdx).rowIsValid row = (mask.rowIsValid row || row == rowIdx) := by
  obtain ⟨_ | entries⟩ := mask
  · cases hmask
  unfold rowIsValid getValidityEntry setValidUnsafe bitsPerValue
  simp only [Option.map_some]
  by_cases hentry : row / 64 = rowIdx / 64
  · rw [hentry,update_self,BitVec.getLsbD_or]
    congr 1
    rw [BitVec.getLsbD_shiftLeft]
    have hlt := Nat.mod_lt row (show 0 < 64 by decide)
    have hone : (1#64).getLsbD (row % 64 - rowIdx % 64) = decide (row % 64 - rowIdx % 64 = 0) := by
      rw [BitVec.getLsbD_one]
      simp
    rw [hone]
    by_cases heq : row = rowIdx
    · simp [heq,Nat.mod_lt]
    · have hne : row % 64 ≠ rowIdx % 64 := by omega
      by_cases hbelow : row % 64 < rowIdx % 64
      · simp [hbelow,heq]
      · have : row % 64 - rowIdx % 64 ≠ 0 := by omega
        simp [this,heq]
  · have hne : row ≠ rowIdx := fun heq => hentry (by rw [heq])
    rw [update_of_ne hentry]
    simp [hne]

end ValidityMask

open ValidityMask

/-- A hash group with the cells of its sort columns, row by row. A cell is as it is compared, with
the direction and the place of NULLs of its column. -/
structure HashGroup (C : Type) where
  count : Nat
  cells : Nat → List C
  /-- The columns of `partition_layout`. -/
  partitionColumns : Nat

/-- The partition mask, and an order mask for every number of sort columns that some window
expression has. -/
structure Masks where
  partitionMask : ValidityMask
  orderMasks : Nat → Option ValidityMask

namespace Masks

/-- The mask of every number of columns is changed alike. -/
def mapOrders (masks : Masks) (f : Nat → ValidityMask → ValidityMask) : Masks :=
  { masks with orderMasks := fun columns => (masks.orderMasks columns).map (f columns) }

def markAll (masks : Masks) (row : Nat) : Masks :=
  { masks with partitionMask := masks.partitionMask.setValidUnsafe row }.mapOrders
    fun _ mask => mask.setValidUnsafe row

end Masks

/-- What `BuildPartition` finds for a hash bin: rows without sorting or a sorted hash group. -/
inductive PartitionRows (C : Type) where
  | unsorted (count : Nat)
  | sorted (group : HashGroup C)

def PartitionRows.count : PartitionRows C → Nat
  | .unsorted count => count
  | .sorted group => group.count

variable {C : Type} [LinearOrder C]

namespace HashGroup

/-- The first cells of a row. -/
def leading (g : HashGroup C) (columns row : Nat) : List C := (g.cells row).take columns

/-- `ComparePartitions` is not zero. -/
def comparePartitions (g : HashGroup C) (left right : Nat) : Bool :=
  decide (g.leading g.partitionColumns left ≠ g.leading g.partitionColumns right)

/-- `SBIterator::Compare` with `COMPARE_LESSTHAN` on the first columns. -/
def compare (g : HashGroup C) (columns left right : Nat) : Bool :=
  decide (g.leading columns left < g.leading columns right)

/-- The body of the loop of `ComputeMasks`. -/
def computeStep (g : HashGroup C) (masks : Masks) (prev : Nat) : Masks :=
  let curr := prev + 1
  if g.comparePartitions prev curr then masks.markAll curr
  else masks.mapOrders fun columns mask =>
    if g.compare columns prev curr then mask.setValidUnsafe curr else mask

def computeMasks (g : HashGroup C) (masks : Masks) : Masks :=
  (range (g.count - 1)).foldl g.computeStep (masks.markAll 0)

end HashGroup

/-- The order mask of an expression is made for the first one with as many columns. -/
def addOrderMask (count : Nat) (masks : Nat → Option ValidityMask) (wexpr : BoundWindowExpression) :
    Nat → Option ValidityMask :=
  if (masks (wexpr.partitions + wexpr.orders)).isSome then masks
  else update masks (wexpr.partitions + wexpr.orders) (some (allInvalid count))

/-- The masks that `BuildPartition` gives to the executors. -/
def buildPartition (selectList : List BoundWindowExpression) (rows : PartitionRows C) : Masks :=
  let masks : Masks :=
    ⟨allInvalid rows.count, selectList.foldl (addOrderMask rows.count) fun _ => none⟩
  match rows with
  | .unsorted _ => masks.markAll 0
  | .sorted group => group.computeMasks masks

/-- The mask has a buffer and marks, of the rows up to `last`, those in `starts`. -/
structure Marks (count last : Nat) (starts : Nat → Prop) (mask : ValidityMask) : Prop where
  buffer : mask.allValid = false
  valid : ∀ row, row < count → (mask.rowIsValid row = true ↔ row ≤ last ∧ starts row)

theorem allValid_setValidUnsafe (mask : ValidityMask) (row : Nat) :
    (mask.setValidUnsafe row).allValid = mask.allValid := by
  simp [allValid,setValidUnsafe]

section

variable {starts : Nat → Prop} {count last : Nat} {mask : ValidityMask}

theorem marks_first (h : starts 0) :
    Marks count 0 starts ((allInvalid count).setValidUnsafe 0) := by
  refine ⟨by rw [allValid_setValidUnsafe]; rfl,?_⟩
  intro row hrow
  rw [rowIsValid_setValidUnsafe rfl,rowIsValid_allInvalid hrow]
  simp only [Bool.false_or,beq_iff_eq,Nat.le_zero]
  constructor
  · rintro rfl
    exact ⟨rfl,h⟩
  · exact And.left

theorem Marks.set (h : Marks count last starts mask) (hstart : starts (last + 1)) :
    Marks count (last + 1) starts (mask.setValidUnsafe (last + 1)) := by
  refine ⟨by rw [allValid_setValidUnsafe]; exact h.buffer,?_⟩
  intro row hrow
  rw [rowIsValid_setValidUnsafe h.buffer,Bool.or_eq_true,h.valid row hrow,beq_iff_eq]
  constructor
  · rintro (⟨hle,hrow⟩ | rfl)
    · exact ⟨Nat.le_succ_of_le hle,hrow⟩
    · exact ⟨le_rfl,hstart⟩
  · rintro ⟨hle,hrow⟩
    exact (Nat.le_succ_iff.mp hle).imp_left fun hle => ⟨hle,hrow⟩

theorem Marks.skip (h : Marks count last starts mask) (hstart : ¬ starts (last + 1)) :
    Marks count (last + 1) starts mask := by
  refine ⟨h.buffer,?_⟩
  intro row hrow
  rw [h.valid row hrow]
  constructor
  · exact And.imp_left Nat.le_succ_of_le
  · rintro ⟨hle,hrow⟩
    rcases Nat.le_succ_iff.mp hle with hle | rfl
    · exact ⟨hle,hrow⟩
    · exact absurd hrow hstart

end

namespace HashGroup

variable (g : HashGroup C)

/-- A row where a partition begins. -/
def StartsPartition (row : Nat) : Prop :=
  row = 0 ∨ g.leading g.partitionColumns (row - 1) ≠ g.leading g.partitionColumns row

/-- A row where peers by the first columns begin. -/
def StartsPeers (columns row : Nat) : Prop :=
  g.StartsPartition row ∨ g.leading columns (row - 1) < g.leading columns row

/-- All masks are right up to a row. -/
structure Computed (last : Nat) (masks : Masks) : Prop where
  partition : Marks g.count last g.StartsPartition masks.partitionMask
  order : ∀ columns mask, masks.orderMasks columns = some mask →
    Marks g.count last (g.StartsPeers columns) mask

theorem computeStep_spec (h : g.Computed last masks) :
    g.Computed (last + 1) (g.computeStep masks last) := by
  unfold computeStep comparePartitions compare
  dsimp only
  split
  case isTrue hdiffers =>
    have hstart : g.StartsPartition (last + 1) := .inr (by simpa using hdiffers)
    refine ⟨h.partition.set hstart,?_⟩
    intro columns mask hmask
    obtain ⟨old,hold,rfl⟩ := Option.map_eq_some_iff.mp hmask
    exact (h.order columns old hold).set (.inl hstart)
  case isFalse hsame =>
    have hstart : ¬ g.StartsPartition (last + 1) := by
      simpa [StartsPartition] using hsame
    refine ⟨h.partition.skip hstart,?_⟩
    intro columns mask hmask
    obtain ⟨old,hold,rfl⟩ := Option.map_eq_some_iff.mp hmask
    have hmarks := h.order columns old hold
    dsimp only
    split
    case isTrue hless => exact hmarks.set (.inr (by simpa using hless))
    case isFalse hless => exact hmarks.skip fun hpeers => hpeers.elim hstart (by simpa using hless)

theorem computeLoop_spec (h : g.Computed 0 masks) (n : Nat) :
    g.Computed n ((range n).foldl g.computeStep masks) := by
  induction n with
  | zero => exact h
  | succ n ih =>
    rw [range_succ,foldl_append]
    exact g.computeStep_spec ih

end HashGroup

/-- Every expression has an order mask, and all of them begin without a mark. -/
theorem foldl_addOrderMask (selectList : List BoundWindowExpression) (count : Nat) :
    selectList.foldl (addOrderMask count) (fun _ => none) = fun columns =>
      if columns ∈ selectList.map (fun wexpr => wexpr.partitions + wexpr.orders) then
        some (allInvalid count)
      else none := by
  induction selectList using reverseRecOn with
  | nil => rfl
  | append_singleton selectList wexpr ih =>
    rw [foldl_append,ih,foldl_cons,foldl_nil,addOrderMask,map_append,map_singleton]
    funext columns
    by_cases hmem : wexpr.partitions + wexpr.orders ∈
        selectList.map (fun wexpr => wexpr.partitions + wexpr.orders)
    · have hiff : columns ∈ selectList.map (fun wexpr => wexpr.partitions + wexpr.orders) ++
          [wexpr.partitions + wexpr.orders] ↔
          columns ∈ selectList.map (fun wexpr => wexpr.partitions + wexpr.orders) := by
        rw [mem_append,mem_singleton]
        exact or_iff_left_of_imp fun heq => heq ▸ hmem
      simp only [hmem,↓reduceIte,Option.isSome_some,hiff]
    · by_cases heq : columns = wexpr.partitions + wexpr.orders
      · simp [hmem,heq]
      · simp [hmem,heq]

/-- Where a partition of the rows begins. -/
def PartitionRows.StartsPartition : PartitionRows C → Nat → Prop
  | .unsorted _, row => row = 0
  | .sorted group, row => group.StartsPartition row

/-- Where peers by the first columns begin. -/
def PartitionRows.StartsPeers : PartitionRows C → Nat → Nat → Prop
  | .unsorted _, _, row => row = 0
  | .sorted group, columns, row => group.StartsPeers columns row

/-- The masks before the rows are compared: only the first row is marked. -/
theorem markAll_first (starts : Nat → Prop) (peers : Nat → Nat → Prop) (hstart : starts 0)
    (hpeers : ∀ columns, peers columns 0) (selectList : List BoundWindowExpression) (count : Nat) :
    let masks := Masks.markAll
      ⟨allInvalid count, selectList.foldl (addOrderMask count) fun _ => none⟩ 0
    Marks count 0 starts masks.partitionMask ∧
      ∀ columns mask, masks.orderMasks columns = some mask →
        Marks count 0 (peers columns) mask := by
  refine ⟨marks_first hstart,?_⟩
  intro columns mask hmask
  obtain ⟨old,hold,rfl⟩ := Option.map_eq_some_iff.mp hmask
  rw [foldl_addOrderMask] at hold
  obtain ⟨-,hold⟩ := Option.ite_none_right_eq_some.mp hold
  cases hold
  exact marks_first (hpeers columns)

/-- All masks mark the starts. -/
theorem buildPartition_marks (selectList : List BoundWindowExpression) (rows : PartitionRows C) :
    Marks rows.count (rows.count - 1) rows.StartsPartition
      (buildPartition selectList rows).partitionMask ∧
    ∀ columns mask, (buildPartition selectList rows).orderMasks columns = some mask →
      Marks rows.count (rows.count - 1) (rows.StartsPeers columns) mask := by
  unfold buildPartition
  cases rows with
  | unsorted count =>
    have hwiden : ∀ {mask}, Marks count 0 (· = 0) mask → Marks count (count - 1) (· = 0) mask := by
      intro mask h
      refine ⟨h.buffer,fun row hrow => (h.valid row hrow).trans ?_⟩
      constructor <;> rintro ⟨-,rfl⟩ <;> simp
    obtain ⟨hpartition,horder⟩ := markAll_first (· = 0) (fun _ => (· = 0)) rfl (fun _ => rfl)
      selectList count
    exact ⟨hwiden hpartition,fun columns mask hmask => hwiden (horder columns mask hmask)⟩
  | sorted group =>
    obtain ⟨hpartition,horder⟩ := markAll_first group.StartsPartition group.StartsPeers (.inl rfl)
      (fun _ => .inl (.inl rfl)) selectList group.count
    obtain ⟨hpartition,horder⟩ := group.computeLoop_spec ⟨hpartition,horder⟩ (group.count - 1)
    exact ⟨hpartition,horder⟩

/-- A window expression with the masks of its partition. -/
structure BuiltInput (selectList : List BoundWindowExpression) (rows : PartitionRows C)
    (input : WindowInput K) : Prop where
  inputSize : input.inputSize = rows.count
  pos : 0 < rows.count
  partitionMask : (buildPartition selectList rows).partitionMask = input.partitionMask
  orderMask : (buildPartition selectList rows).orderMasks
    (input.wexpr.partitions + input.wexpr.orders) = some input.orderMask
  partitions : ∀ group, rows = .sorted group → group.partitionColumns = input.wexpr.partitions

section

variable {K : Type} {input : WindowInput K} {selectList : List BoundWindowExpression}
  {rows : PartitionRows C} (h : BuiltInput selectList rows input)
include h

theorem BuiltInput.partition_iff (hrow : row < input.inputSize) :
    input.partitionMask.rowIsValid row = true ↔ rows.StartsPartition row := by
  rw [h.inputSize] at hrow
  have hmarks := (buildPartition_marks selectList rows).1.valid row hrow
  rw [h.partitionMask] at hmarks
  rw [hmarks]
  exact and_iff_right (Nat.le_sub_one_of_lt hrow)

theorem BuiltInput.order_iff (hrow : row < input.inputSize) :
    input.orderMask.rowIsValid row = true ↔
      rows.StartsPeers (input.wexpr.partitions + input.wexpr.orders) row := by
  rw [h.inputSize] at hrow
  rw [((buildPartition_marks selectList rows).2 _ _ h.orderMask).valid row hrow]
  exact and_iff_right (Nat.le_sub_one_of_lt hrow)

/-- The masks belong to the window expression. -/
theorem BuiltInput.masksWf : MasksWf input := by
  have hpos : 0 < input.inputSize := h.inputSize ▸ h.pos
  refine ⟨?partition_zero,?order_zero,?order_of_partition,?one_partition,?no_order⟩
  case partition_zero =>
    rw [h.partition_iff hpos]
    cases rows with
    | unsorted => rfl
    | sorted => exact .inl rfl
  case order_zero =>
    rw [h.order_iff hpos]
    cases rows with
    | unsorted => rfl
    | sorted => exact .inl (.inl rfl)
  case order_of_partition =>
    intro i hi hvalid
    rw [h.partition_iff hi] at hvalid
    rw [h.order_iff hi]
    cases rows with
    | unsorted => exact hvalid
    | sorted => exact .inl hvalid
  case one_partition =>
    intro hnone i hpos' hi
    rw [← Bool.not_eq_true,h.partition_iff hi]
    cases rows with
    | unsorted => exact hpos'.ne'
    | sorted group =>
      rintro (hzero | hdiffers)
      · exact hpos'.ne' hzero
      · simp [HashGroup.leading,h.partitions group rfl,hnone] at hdiffers
  case no_order =>
    intro hnone i hi hvalid
    rw [h.order_iff hi] at hvalid
    rw [h.partition_iff hi]
    cases rows with
    | unsorted => exact hvalid
    | sorted group =>
      rcases hvalid with hstart | hless
      · exact hstart
      · rw [hnone,Nat.add_zero,← h.partitions group rfl] at hless
        exact .inr hless.ne

end

/-- Rows compare as their first cells do, where these differ. -/
theorem lt_of_take_lt {a b : List C} (n : Nat) (h : a.take n < b.take n) : a < b := by
  induction n generalizing a b with
  | zero => simp at h
  | succ n ih =>
    cases b with
    | nil => simp at h
    | cons y b =>
      cases a with
      | nil => exact .nil
      | cons x a =>
        rw [take_succ_cons,take_succ_cons,cons_lt_cons_iff] at h
        exact cons_lt_cons_iff.mpr (h.imp_right fun h => ⟨h.1,ih h.2⟩)

/-- The order of keys, with NULL keys at one end. -/
def KeyBefore [LinearOrder K] (range : WindowInputColumn K) (sense : OrderType) (nullsFirst : Bool)
    (i j : Nat) : Prop :=
  match range.cellIsNull i, range.cellIsNull j with
  | true, true => False
  | true, false => nullsFirst = true
  | false, true => nullsFirst = false
  | false, false => sense.comp (range.getCell i) (range.getCell j) = true

/-- The rows of a group are sorted, and the cell behind those of the partition is the key of the
row, with the direction and the place of NULLs of the column. -/
structure SortedGroup [LinearOrder K] (g : HashGroup C) (range : WindowInputColumn K)
    (sense : OrderType) (nullsFirst : Bool) (key : Nat → C) : Prop where
  sorted : ∀ i j, i ≤ j → j < g.count → g.cells i ≤ g.cells j
  split : ∀ i, i < g.count →
    g.leading (g.partitionColumns + 1) i = g.leading g.partitionColumns i ++ [key i]
  key_lt : ∀ i j, i < g.count → j < g.count → (key i < key j ↔ KeyBefore range sense nullsFirst i j)

section

variable {K : Type} [LinearOrder K] {g : HashGroup C} {range : WindowInputColumn K}
  {sense : OrderType} {nullsFirst : Bool} {key : Nat → C}
  (h : SortedGroup g range sense nullsFirst key)
include h

theorem SortedGroup.leading_le (columns : Nat) (hij : i ≤ j) (hj : j < g.count) :
    g.leading columns i ≤ g.leading columns j := by
  by_contra hlt
  exact absurd (lt_of_take_lt columns (not_le.mp hlt)) (not_lt.mpr (h.sorted i j hij hj))

/-- In a partition the rows are sorted by their keys. -/
theorem SortedGroup.not_keyBefore (hij : i ≤ j) (hj : j < g.count)
    (hsame : g.leading g.partitionColumns i = g.leading g.partitionColumns j) :
    ¬ KeyBefore range sense nullsFirst j i := by
  have hi := hij.trans_lt hj
  have hle := h.leading_le (g.partitionColumns + 1) hij hj
  rw [h.split i hi,h.split j hj,hsame] at hle
  rw [← h.key_lt j i hj hi]
  intro hlt
  exact absurd (Lex.append_left _ (.rel hlt) _) (not_lt.mpr hle)

theorem SortedGroup.key_eq_iff (hi : i < g.count) (hj : j < g.count) :
    key i = key j ↔ range.cellIsNull i = range.cellIsNull j ∧
      (range.cellIsNull i = false → range.getCell i = range.getCell j) := by
  have hiff : key i = key j ↔ ¬ KeyBefore range sense nullsFirst i j ∧
      ¬ KeyBefore range sense nullsFirst j i := by
    rw [← h.key_lt i j hi hj,← h.key_lt j i hj hi,not_lt,not_lt]
    exact ⟨fun heq => ⟨heq.ge,heq.le⟩,fun ⟨h1,h2⟩ => le_antisymm h2 h1⟩
  rw [hiff]
  unfold KeyBefore
  cases range.cellIsNull i <;> cases range.cellIsNull j
  · simp only [Bool.not_eq_true,true_and,forall_const]
    constructor
    · exact fun hcomp => eq_of_comp hcomp.1 hcomp.2
    · rintro heq
      rw [heq]
      exact ⟨comp_self _ _,comp_self _ _⟩
  all_goals cases nullsFirst <;> simp

end

section

variable {K : Type} [LinearOrder K] {g : HashGroup C} {input : WindowInput K} {nullsFirst : Bool}
  {key : Nat → C} {selectList : List BoundWindowExpression}
  (hb : BuiltInput selectList (.sorted g) input)
  (h : SortedGroup g input.range input.wexpr.rangeSense nullsFirst key)
include hb h

theorem BuiltInput.sameGroup_iff (hi : i < input.inputSize) (hj : j < input.inputSize) :
    SameGroup input.partitionMask.rowIsValid i j ↔
      g.leading g.partitionColumns i = g.leading g.partitionColumns j := by
  have hsize : input.inputSize = g.count := hb.inputSize
  apply sameGroup_iff_eq (f := g.leading g.partitionColumns) _ _ hi hj
  · intro i j hij hj
    exact h.leading_le _ hij (hsize ▸ hj)
  · intro k hpos hk
    rw [← Bool.not_eq_true,hb.partition_iff hk]
    simp [PartitionRows.StartsPartition,HashGroup.StartsPartition,hpos.ne']

end

/-- Two partitions, of two rows and of one. -/
def twoPartitions : HashGroup Nat where
  count := 3
  cells := fun row => [[1, 5], [1, 7], [2, 5]].getD row []
  partitionColumns := 1

def twoPartitionsWindow : BoundWindowExpression :=
  ⟨.other, .currentRowRange, .exprFollowingRange, 1, 1, .ascending, .noOther⟩

def twoPartitionsInput : WindowInput Nat where
  wexpr := twoPartitionsWindow
  inputSize := 3
  range := ⟨fun row => [5, 7, 5].getD row 0, fun _ => false⟩
  partitionMask := (buildPartition [twoPartitionsWindow] (.sorted twoPartitions)).partitionMask
  orderMask :=
    ((buildPartition [twoPartitionsWindow] (.sorted twoPartitions)).orderMasks 2).getD ⟨none⟩

end PredTrans.Window

import PredTrans.Window.Mask

/-! The rows that `lead` and `lag` read (`WindowLeadLagExecutor` of window_executor.cpp). -/

namespace PredTrans.Window

inductive LeadLagType where
  | windowLead
  | windowLag
  deriving DecidableEq, Repr

/-- The arguments by row. A NULL value is `none`; without `offset_expr` the offset is one. -/
structure LeadLag (α : Type*) where
  type : LeadLagType
  ignoreNulls : ValidityMask
  payload : Nat → Option α
  offsetExpr : Option (Nat → Int)
  defaultExpr : Option (Nat → Option α)

namespace LeadLag

variable {α : Type*} (w : LeadLag α)

def offset (row : Nat) : Int :=
  match w.offsetExpr with
  | none => 1
  | some offset => offset row

/-- `AddOperatorOverflowCheck` and `SubtractOperatorOverflowCheck`. -/
def checkInt64 (x : Int) : Option Int := if -2 ^ 63 ≤ x ∧ x < 2 ^ 63 then some x else none

def valIdx (row : Nat) : Int :=
  match w.type with
  | .windowLead => row + w.offset row
  | .windowLag => row - w.offset row

def fallback (row : Nat) : Option α :=
  match w.defaultExpr with
  | some default => default row
  | none => none

/-- The position to read, with the number of rows that could not be skipped. -/
def find (partitionBegin partitionEnd row : Nat) (valIdx : Int) : Nat × Nat :=
  if valIdx < row then findPrevStart w.ignoreNulls partitionBegin row (row - valIdx).toNat
  else if row < valIdx then
    findNextStart w.ignoreNulls (row + 1) partitionEnd (valIdx - row).toNat
  else (row, 0)

def read (row : Nat) (found : Nat × Nat) : Option α :=
  if found.2 = 0 then w.payload found.1 else w.fallback row

/-- The body of the loop of `EvaluateInternal`. -/
def evaluateRow (partitionBegin partitionEnd row : Nat) : Option (Option α) :=
  (checkInt64 (w.valIdx row)).map fun valIdx =>
    w.read row (w.find partitionBegin partitionEnd row valIdx)

/-- `EvaluateInternal`; it throws if the position of a row overflows. -/
def evaluateInternal (partitionBegin partitionEnd : Nat → Nat) (count rowIdx : Nat) :
    Option (List (Option α)) :=
  (List.range' rowIdx count).mapM fun row => w.evaluateRow (partitionBegin row)
    (partitionEnd row) row

/-- How many rows forwards the function looks. -/
def lead (row : Nat) : Int :=
  match w.type with
  | .windowLead => w.offset row
  | .windowLag => -w.offset row

/-- The row to read: the row itself, or counted among the rows of its partition that are not
ignored, behind it or backwards before it. -/
def source (partitionBegin partitionEnd row : Nat) : Option Nat :=
  if w.lead row = 0 then some row
  else if 0 < w.lead row then
    (validRows w.ignoreNulls (row + 1) partitionEnd)[(w.lead row).toNat - 1]?
  else (validRows w.ignoreNulls partitionBegin row).reverse[(-w.lead row).toNat - 1]?

def expected (partitionBegin partitionEnd row : Nat) : Option α :=
  match w.source partitionBegin partitionEnd row with
  | some pos => w.payload pos
  | none => w.fallback row

theorem read_nthRow (hn : 0 < n) (rows : List Nat) (stop row : Nat) :
    w.read row (nthRow rows n stop) =
    match rows[n - 1]? with
    | some pos => w.payload pos
    | none => w.fallback row := by
  unfold read nthRow
  rcases lt_or_ge (n - 1) rows.length with hlt | hge
  · rw [if_pos (by omega)]
    simp [hlt]
  · rw [if_neg (by omega),List.getElem?_eq_none hge]

theorem evaluateRow_spec (hlo : partitionBegin ≤ row) (hhi : row < partitionEnd)
    (hfits : -2 ^ 63 ≤ w.valIdx row ∧ w.valIdx row < 2 ^ 63) :
    w.evaluateRow partitionBegin partitionEnd row =
      some (w.expected partitionBegin partitionEnd row) := by
  have hval : w.valIdx row = row + w.lead row := by
    unfold valIdx lead
    split <;> omega
  rw [evaluateRow,checkInt64,if_pos hfits,hval,expected,source]
  simp only [Option.map_some,Option.some.injEq]
  unfold find
  rcases lt_trichotomy (w.lead row) 0 with hlt | heq | hgt
  · have hcount : (row : Int) - (row + w.lead row) = -w.lead row := by omega
    rw [if_neg hlt.ne,if_neg hlt.le.not_gt,if_pos (by omega),hcount,
      findPrevStart_spec (by omega) hlo]
    exact w.read_nthRow (by omega) _ partitionBegin row
  · simp [heq,read]
  · have hcount : (row + w.lead row : Int) - row = w.lead row := by omega
    rw [if_neg hgt.ne',if_pos hgt,if_neg (by omega),if_pos (by omega),hcount,
      findNextStart_spec (by omega) hhi]
    exact w.read_nthRow (by omega) _ partitionEnd row

/-- Every row gets the value at its source, or else the default. -/
theorem leadLag_exact (partitionBegin partitionEnd : Nat → Nat) (count rowIdx : Nat)
    (hpartition : ∀ row, rowIdx ≤ row → row < rowIdx + count →
      partitionBegin row ≤ row ∧ row < partitionEnd row)
    (hfits : ∀ row, rowIdx ≤ row → row < rowIdx + count →
      -2 ^ 63 ≤ w.valIdx row ∧ w.valIdx row < 2 ^ 63) :
    w.evaluateInternal partitionBegin partitionEnd count rowIdx =
      some ((List.range' rowIdx count).map fun row =>
        w.expected (partitionBegin row) (partitionEnd row) row) := by
  unfold evaluateInternal
  have hrows : ∀ row ∈ List.range' rowIdx count, w.evaluateRow (partitionBegin row)
      (partitionEnd row) row = some (w.expected (partitionBegin row) (partitionEnd row) row) := by
    intro row hrow
    obtain ⟨hlo,hhi⟩ := List.mem_range'_1.mp hrow
    obtain ⟨hbegin,hend⟩ := hpartition row hlo hhi
    exact w.evaluateRow_spec hbegin hend (hfits row hlo hhi)
  generalize List.range' rowIdx count = rows at hrows ⊢
  induction rows with
  | nil => rfl
  | cons row rows ih =>
    obtain ⟨hrow,hrows⟩ := List.forall_mem_cons.mp hrows
    rw [List.mapM_cons,hrow,ih hrows]
    rfl

end LeadLag

/-- `lag(x, 2 IGNORE NULLS)` in the second of two partitions, with a NULL before the last row. -/
def lagTwo : LeadLag Nat :=
  ⟨.windowLag, ⟨some fun _ => 0b10111#64⟩, fun row => some (10 * row), some fun _ => 2, none⟩

theorem lagTwo_exact : lagTwo.evaluateInternal (fun _ => 1) (fun _ => 5) 1 4 = some [some 10] := by
  have hfits : ∀ row, 4 ≤ row → row < 4 + 1 →
      -2 ^ 63 ≤ lagTwo.valIdx row ∧ lagTwo.valIdx row < 2 ^ 63 := by
    simp [LeadLag.valIdx,lagTwo,LeadLag.offset]
    omega
  rw [LeadLag.leadLag_exact lagTwo _ _ _ _ (by omega) hfits]
  decide

end PredTrans.Window

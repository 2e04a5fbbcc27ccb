import PredTrans.Compression.Bitpacking

/-!
# What a written group stands for

Whatever mode a group is written in, its data stands for the collected values at the
valid rows.
-/

namespace PredTrans.Compression.Bitpacking

open Library BitpackingPrimitives List BitVec Bool

section Arithmetic

variable {w : Nat} {signed : Bool}

theorem valueOf_injective (h : valueOf signed a = valueOf signed b) : a = b := by
  unfold valueOf at h
  split at h
  · exact eq_of_toInt_eq h
  · exact eq_of_toNat_eq (by omega)

theorem toNat_sub_eq (l r : BitVec w) :
    (l - r).toNat = if r.toNat ≤ l.toNat then l.toNat - r.toNat else 2 ^ w - r.toNat + l.toNat := by
  have hl := l.isLt
  rw [toNat_sub]
  generalize 2 ^ w = n at *
  split
  · rw [show n - r.toNat + l.toNat = n + (l.toNat - r.toNat) by omega,Nat.add_mod_left,
      Nat.mod_eq_of_lt (by omega)]
  · exact Nat.mod_eq_of_lt (by omega)

/-- A difference of ordered numbers does not wrap around. -/
theorem toNat_sub_of_le {l r : BitVec w} (h : valueOf signed r ≤ valueOf signed l) :
    ((l - r).toNat : Int) = valueOf signed l - valueOf signed r := by
  unfold valueOf at *
  have hl2 := toInt_eq_toNat_cond l
  have hr2 := toInt_eq_toNat_cond r
  rw [toNat_sub_eq]
  push_cast at hl2 hr2
  generalize hn : 2 ^ w = n at *
  have hcast : (2 : Int) ^ w = n := by exact_mod_cast hn
  cases signed with
  | true =>
    simp only [if_true] at h ⊢
    split at hl2 <;> split at hr2 <;> split <;> omega
  | false =>
    simp only [false_eq_true,if_false] at h ⊢
    split <;> omega

theorem toNat_sub_le (hlow : valueOf signed low ≤ valueOf signed x)
    (hhigh : valueOf signed x ≤ valueOf signed high) : (x - low).toNat ≤ (high - low).toNat := by
  have h1 := toNat_sub_of_le hlow
  have h2 := toNat_sub_of_le (hlow.trans hhigh)
  omega

theorem trySubtract_of_success {l r : BitVec w} (h : (trySubtract signed l r).1 = true) :
    (trySubtract signed l r).2 = l - r := by
  unfold trySubtract at h ⊢
  generalize (if w = 128 ∧ signed = false then uhugeintNoOverflow l r
    else inRange w signed (valueOf signed l - valueOf signed r)) = success at h ⊢
  cases success with
  | true => rfl
  | false =>
    simp only [false_eq_true,if_false] at h
    split at h
    · simp at h
    · split at h <;> simp at h

theorem minValue_le (signed : Bool) (a b : BitVec w) :
    valueOf signed (minValue signed a b) ≤ valueOf signed a ∧
    valueOf signed (minValue signed a b) ≤ valueOf signed b := by
  unfold minValue
  split <;> omega

theorem le_maxValue (signed : Bool) (a b : BitVec w) :
    valueOf signed a ≤ valueOf signed (maxValue signed a b) ∧
    valueOf signed b ≤ valueOf signed (maxValue signed a b) := by
  unfold maxValue
  split <;> omega

/-- What is below both of its arguments folds to something below the whole list. -/
theorem foldl_le {f : α → Int} {g : α → α → α} (h : ∀ a b, f (g a b) ≤ f a ∧ f (g a b) ≤ f b) :
    f (foldl g init l) ≤ f init ∧ ∀ x ∈ l, f (foldl g init l) ≤ f x := by
  induction l generalizing init with
  | nil => simp
  | cons y l ih =>
    obtain ⟨hinit,hmem⟩ := @ih (g init y)
    refine ⟨hinit.trans (h init y).1,?_⟩
    intro x hx
    rcases mem_cons.mp hx with rfl | hx
    · exact hinit.trans (h init x).2
    · exact hmem x hx

theorem foldl_minValue_le (hx : x ∈ l) :
    valueOf signed (foldl (minValue signed) init l) ≤ valueOf signed x :=
  (foldl_le (minValue_le signed)).2 x hx

theorem le_foldl_maxValue (hx : x ∈ l) :
    valueOf signed x ≤ valueOf signed (foldl (maxValue signed) init l) := by
  have hfold := @foldl_le _ init l (fun a => -valueOf signed a) (maxValue signed)
  simp only [neg_le_neg_iff] at hfold
  exact (hfold (le_maxValue signed)).2 x hx

end Arithmetic

namespace GroupData

variable {t : IntegerType}

/-- What unpacking gives for a value. -/
def packedValue (t : IntegerType) (width : Nat) (values : List Nat) (i : Nat) : BitVec t.bits :=
  BitVec.ofNat t.bits (values.getD i 0 % 2 ^ width)

/-- The sum of the deltas up to a row. -/
def deltaSum (frame : BitVec t.bits) (width : Nat) (offset : BitVec t.bits) (values : List Nat) :
    Nat → BitVec t.bits
  | 0 => packedValue t width values 0 + frame + offset
  | i + 1 => packedValue t width values (i + 1) + frame + deltaSum frame width offset values i

/-- The value that the data stands for at a row of its group. -/
def decode : GroupData t → Nat → BitVec t.bits
  | constant value, _ => value
  | constantDelta frame delta, i => BitVec.ofNat t.bits i * delta + frame
  | deltaFor frame width offset values, i => deltaSum frame width offset values i
  | frameOfReference frame width values, i => packedValue t width values i + frame

/-- The packed values have a width of the type. -/
def WellFormed (count : Nat) : GroupData t → Prop
  | constant _ => True
  | constantDelta _ _ => True
  | deltaFor _ width _ values => width ≤ t.bits ∧ values.length = count
  | frameOfReference _ width values => width ≤ t.bits ∧ values.length = count

end GroupData

namespace BitpackingState

variable {t : IntegerType} {st : BitpackingState t} {rows : List (BitVec t.bits × Bool)}

/-- The state after the rows of the current group. -/
structure Collects (st : BitpackingState t) (rows : List (BitVec t.bits × Bool)) : Prop where
  count : st.count = rows.length
  buffer : ∀ (i : Nat) v, rows[i]? = some (v, true) → st.buffer i = v
  bounds : ∀ (i : Nat) v, rows[i]? = some (v, true) →
    valueOf t.isSigned st.minimum ≤ valueOf t.isSigned v ∧
      valueOf t.isSigned v ≤ valueOf t.isSigned st.maximum
  allValid : st.allValid = true → ∀ (i : Nat) v b, rows[i]? = some (v, b) → b = true
  allInvalid : st.allInvalid = true → ∀ (i : Nat) v b, rows[i]? = some (v, b) → b = false

theorem collects_reset (buffer : Nat → BitVec t.bits) : Collects (reset buffer) [] :=
  ⟨rfl,by simp,by simp,by simp,by simp⟩

theorem getElem?_append_singleton (h : (l ++ [a])[i]? = some b) :
    l[i]? = some b ∨ (i = l.length ∧ b = a) := by
  rw [getElem?_append] at h
  split at h
  · exact .inl h
  · obtain ⟨hlt,heq⟩ := List.getElem?_eq_some_iff.mp h
    simp only [length_singleton] at hlt
    simp only [getElem_singleton] at heq
    exact .inr ⟨by omega,heq.symm⟩

theorem Collects.lt_count (h : Collects st rows) (hi : rows[i]? = some row) : i < st.count := by
  obtain ⟨hlt,-⟩ := List.getElem?_eq_some_iff.mp hi
  rw [h.count]
  exact hlt

theorem Collects.add (h : Collects st rows) (value : BitVec t.bits) (valid : Bool) :
    Collects (st.add value valid) (rows ++ [(value, valid)]) := by
  have hcount := h.count
  constructor
  · simp [BitpackingState.add,hcount]
  · intro i v hv
    rcases getElem?_append_singleton hv with hold | ⟨hi,heq⟩
    · cases valid with
      | false => exact h.buffer i v hold
      | true =>
        have hne : i ≠ st.count := (h.lt_count hold).ne
        simp [BitpackingState.add,hne,h.buffer i v hold]
    · obtain ⟨rfl,rfl⟩ := Prod.mk.inj heq
      simp [BitpackingState.add,hi,hcount]
  · intro i v hv
    have hmin := minValue_le t.isSigned st.minimum value
    have hmax := le_maxValue t.isSigned st.maximum value
    rcases getElem?_append_singleton hv with hv | ⟨hi,heq⟩
    · obtain ⟨hlow,hhigh⟩ := h.bounds i v hv
      cases valid with
      | false => exact ⟨hlow,hhigh⟩
      | true => exact ⟨hmin.1.trans hlow,hhigh.trans hmax.1⟩
    · obtain ⟨rfl,rfl⟩ := Prod.mk.inj heq
      exact ⟨hmin.2,hmax.2⟩
  all_goals
    intro hall i v b hv
    obtain ⟨hst,hvalid⟩ := (and_eq_true _ _).mp hall
    rcases getElem?_append_singleton hv with hv | ⟨hi,heq⟩
  · exact h.allValid hst i v b hv
  · exact (Prod.mk.inj heq).2.trans hvalid
  · exact h.allInvalid hst i v b hv
  · rw [(Prod.mk.inj heq).2]
    simpa using hvalid

theorem getD_valuesOf (buffer : Nat → BitVec t.bits) {count i : Nat} (hi : i < count) :
    (valuesOf buffer count).getD i 0 = (buffer i).toNat := by
  simp [valuesOf,hi]

/-- A value between the frame and the frame plus the largest difference survives packing. -/
theorem packedValue_add (hx : values.getD i 0 = (x - low).toNat)
    (hlow : valueOf signed low ≤ valueOf signed x)
    (hhigh : valueOf signed x ≤ valueOf signed high) :
    GroupData.packedValue t (minimumBitWidth t.size (high - low).toNat) values i + low = x := by
  have hbits : (high - low).toNat < 2 ^ (t.size * 8) := (high - low).isLt
  have hlt := lt_two_pow_minimumBitWidth hbits
  have hle := toNat_sub_le hlow hhigh
  rw [GroupData.packedValue,hx,Nat.mod_eq_of_lt (by omega),BitVec.ofNat_toNat,BitVec.setWidth_eq,
    BitVec.sub_add_cancel]

theorem width_le (x : BitVec t.bits) : minimumBitWidth t.size x.toNat ≤ t.bits :=
  minimumBitWidth_le x.isLt

/-- The group stands for the rows. -/
def Encodes (g : Group t) (rows : List (BitVec t.bits × Bool)) : Prop :=
  g.count = rows.length ∧ g.data.WellFormed g.count ∧
    ∀ (i : Nat) v, rows[i]? = some (v, true) → g.data.decode i = v

theorem Collects.flushFor (h : Collects st rows) {g : Group t} (hg : st.flushFor.1 = .written g) :
    Encodes g rows := by
  unfold BitpackingState.flushFor at hg
  dsimp only at hg
  split at hg
  · rename_i hs
    rw [trySubtract_of_success hs] at hg
    obtain rfl := FlushResult.written.inj hg
    refine ⟨h.count,⟨width_le _,by simp [valuesOf]⟩,?_⟩
    intro i v hv
    obtain ⟨hlow,hhigh⟩ := h.bounds i v hv
    obtain ⟨hlt,-⟩ := List.getElem?_eq_some_iff.mp hv
    refine packedValue_add ?_ hlow hhigh
    have hi : i < st.count := by rw [h.count]; exact hlt
    rw [getD_valuesOf _ hi,subtractFrameOfReference,if_pos hi,h.buffer i v hv]
  · cases hg

/-- What the delta statistics say when deltas can be used. -/
structure DeltasOf (st : BitpackingState t) (d : DeltaStats t) : Prop where
  allValid : st.allValid = true
  count : 2 ≤ st.count
  first : d.deltas 0 = d.minimumDelta
  delta : ∀ i, i + 1 < st.count → d.deltas (i + 1) = st.buffer (i + 1) - st.buffer i
  bounds : ∀ i, i + 1 < st.count → valueOf true d.minimumDelta ≤ valueOf true (d.deltas (i + 1)) ∧
    valueOf true (d.deltas (i + 1)) ≤ valueOf true d.maximumDelta
  diff : d.minMaxDeltaDiff = d.maximumDelta - d.minimumDelta
  offset : d.deltaOffset = st.buffer 0 - d.minimumDelta

theorem deltasOf_calculateDeltaStats {d : DeltaStats t} (h : st.calculateDeltaStats = some d) :
    DeltasOf st d := by
  unfold calculateDeltaStats at h
  split at h
  · cases h
  split at h
  · cases h
  split at h
  · cases h
  rename_i hvalid
  dsimp only at h
  split at h
  · split at h
    · rename_i hs
      obtain ⟨hdiff,hoffset⟩ := (and_eq_true _ _).mp hs
      obtain rfl := Option.some.inj h
      have hmem : ∀ i, i + 1 < st.count → st.buffer (i + 1) - st.previous (i + 1) ∈
          (List.range (st.count - 1)).map (fun i => st.buffer (i + 1) - st.previous (i + 1)) := by
        intro i hi
        refine mem_map.mpr ⟨i,?_,rfl⟩
        rw [mem_range]
        omega
      refine ⟨by simpa using hvalid,by omega,rfl,fun i _ => rfl,?_,?_,?_⟩
      · intro i hi
        exact ⟨foldl_minValue_le (hmem i hi),le_foldl_maxValue (hmem i hi)⟩
      · exact trySubtract_of_success hdiff
      · exact trySubtract_of_success hoffset
    · cases h
  · cases h

/-- With one delta throughout, the values are an arithmetic progression. -/
theorem DeltasOf.progression (h : DeltasOf st d) (heq : d.maximumDelta = d.minimumDelta)
    (hi : i < st.count) : BitVec.ofNat t.bits i * d.maximumDelta + st.buffer 0 = st.buffer i := by
  induction i with
  | zero => simp
  | succ i ih =>
    have hdelta : d.deltas (i + 1) = d.maximumDelta := by
      have hb := h.bounds i hi
      rw [heq] at hb ⊢
      exact valueOf_injective (le_antisymm hb.2 hb.1)
    have hstep : st.buffer (i + 1) = d.maximumDelta + st.buffer i := by
      rw [← hdelta,h.delta i hi,BitVec.sub_add_cancel]
    rw [hstep,← ih (by omega),BitVec.ofNat_add,BitVec.add_mul,BitVec.add_comm (_ * _),
      BitVec.add_assoc]
    simp

theorem DeltasOf.deltaSum (h : DeltasOf st d) (hi : i < st.count) :
    GroupData.deltaSum d.minimumDelta (minimumBitWidth t.size d.minMaxDeltaDiff.toNat) d.deltaOffset
      (valuesOf (subtractFrameOfReference d.deltas st.count d.minimumDelta) st.count) i =
          st.buffer i := by
  have hvalue : ∀ j, j < st.count →
      (valuesOf (subtractFrameOfReference d.deltas st.count d.minimumDelta) st.count).getD j 0 =
        (d.deltas j - d.minimumDelta).toNat := by
    intro j hj
    rw [getD_valuesOf _ hj,subtractFrameOfReference,if_pos hj]
  induction i with
  | zero =>
    have hle : valueOf true d.minimumDelta ≤ valueOf true d.maximumDelta := by
      have hb := h.bounds 0 h.count
      exact hb.1.trans hb.2
    have hfirst : GroupData.packedValue t (minimumBitWidth t.size d.minMaxDeltaDiff.toNat)
        (valuesOf (subtractFrameOfReference d.deltas st.count d.minimumDelta) st.count) 0 +
        d.minimumDelta = d.minimumDelta := by
      rw [h.diff]
      refine packedValue_add ?_ le_rfl hle
      rw [hvalue 0 hi,h.first]
    rw [GroupData.deltaSum,hfirst,h.offset,add_comm,sub_add_cancel]
  | succ i ih =>
    have hb := h.bounds i hi
    have hnext : GroupData.packedValue t (minimumBitWidth t.size d.minMaxDeltaDiff.toNat)
        (valuesOf (subtractFrameOfReference d.deltas st.count d.minimumDelta) st.count) (i + 1) +
        d.minimumDelta = d.deltas (i + 1) := by
      rw [h.diff]
      exact packedValue_add (hvalue (i + 1) hi) hb.1 hb.2
    rw [GroupData.deltaSum,hnext,ih (by omega),h.delta i hi,sub_add_cancel]

theorem Collects.flush (h : Collects st rows) (hg : (st.flush mode).1 = .written g) :
    Encodes g rows := by
  unfold BitpackingState.flush at hg
  split at hg
  · cases hg
  split at hg
  · rename_i hconst
    obtain rfl := FlushResult.written.inj hg
    refine ⟨h.count,trivial,?_⟩
    intro i v hv
    have hcond := ((and_eq_true _ _).mp hconst).1
    rcases (or_eq_true _ _).mp hcond with hinv | heq
    · exact absurd (h.allInvalid hinv i v true hv) (by decide)
    · have hb := h.bounds i v hv
      rw [← eq_of_beq heq] at hb
      exact valueOf_injective (le_antisymm hb.1 hb.2)
  · split at hg
    · exact h.flushFor hg
    rename_i d hd
    have hdel := deltasOf_calculateDeltaStats hd
    split at hg
    · rename_i heq
      obtain rfl := FlushResult.written.inj hg
      refine ⟨h.count,trivial,?_⟩
      intro i v hv
      exact (hdel.progression heq.1 (h.lt_count hv)).trans (h.buffer i v hv)
    · dsimp only at hg
      split at hg
      · obtain rfl := FlushResult.written.inj hg
        refine ⟨h.count,⟨width_le _,by simp [valuesOf]⟩,?_⟩
        intro i v hv
        exact (hdel.deltaSum (h.lt_count hv)).trans (h.buffer i v hv)
      · exact h.flushFor hg

end BitpackingState

end PredTrans.Compression.Bitpacking

import PredTrans.Index.Layout
import PredTrans.Library.OrderedCodes

/-! The keys of an index. Integers are stored with the most significant byte first and a flipped
sign, strings with a zero byte behind them. The columns of a compound key stand one behind the
other. -/

namespace PredTrans.Index
open Library List Nat

/-- The logical types that are stored as strings. -/
inductive StringTypeId
  | varchar | char | blob | bit | aggregateState
deriving DecidableEq, Repr

structure StringType where
  id : StringTypeId
  aliasName : String
deriving DecidableEq, Repr

/-- The types for which zero bytes are looked for. Types are equal by their id and alias. -/
def StringType.checked (type : StringType) : Bool := type = ⟨.blob, ""⟩ || type = ⟨.varchar, ""⟩

/-- Integers of up to eight bytes are given by the number of bytes behind the first one. -/
inductive KeyType
  | boolean
  | signed (size : Nat)
  | unsigned (size : Nat)
  | hugeint
  | uhugeint
  | string (type : StringType)

/-- Huge integers are an upper and a lower half. -/
def Value : KeyType → Type
  | .boolean => Bool
  | .signed size | .unsigned size => BitVec (8 * (size + 1))
  | .hugeint | .uhugeint => BitVec 64 × BitVec 64
  | .string _ => List Byte

def signedLess (a b : BitVec w) : Prop := a.toInt < b.toInt
def unsignedLess (a b : BitVec w) : Prop := a.toNat < b.toNat

def Value.Less : (t : KeyType) → Value t → Value t → Prop
  | .boolean => fun (a b : Bool) => a < b
  | .signed _ => signedLess
  | .unsigned _ => unsignedLess
  | .hugeint => Prod.Lex signedLess unsignedLess
  | .uhugeint => Prod.Lex unsignedLess unsignedLess
  | .string _ => fun (a b : List Byte) => a < b

/-- What storing a number with its bytes swapped leaves in memory. -/
def bigEndian : Nat → Nat → List Byte
  | 0, _ => []
  | n + 1, x => Fin.ofNat 256 (x / 256 ^ n) :: bigEndian n x

def flipSign (byte : Byte) : Byte := byte ^^^ 128

def encodeUnsigned (size : Nat) (x : BitVec (8 * (size + 1))) : List Byte :=
  bigEndian (size + 1) x.toNat

def encodeSigned (size : Nat) (x : BitVec (8 * (size + 1))) : List Byte :=
  (bigEndian (size + 1) x.toNat).modifyHead flipSign

def createARTKey : (t : KeyType) → Value t → Except String (List Byte)
  | .boolean => fun (b : Bool) => .ok [if b then 1 else 0]
  | .signed size => fun x => .ok (encodeSigned size x)
  | .unsigned size => fun x => .ok (encodeUnsigned size x)
  | .hugeint => fun x => .ok (encodeSigned 7 x.1 ++ encodeUnsigned 7 x.2)
  | .uhugeint => fun x => .ok (encodeUnsigned 7 x.1 ++ encodeUnsigned 7 x.2)
  | .string type => fun (s : List Byte) =>
    if type.checked && s.contains 0 then .error "ART indexes cannot contain BLOBs with zero bytes."
    else .ok (s ++ [0])

/-- The values of one row without NULLs. -/
def Row : List KeyType → Type
  | [] => Unit
  | t :: ts => Value t × Row ts

def Row.Less : (ts : List KeyType) → Row ts → Row ts → Prop
  | [] => fun _ _ => False
  | t :: ts => Prod.Lex (Value.Less t) (Row.Less ts)

def concatenateKeys : (ts : List KeyType) → Row ts → List Byte → Except String (List Byte)
  | [], _, key => .ok key
  | t :: ts, (v, row), key => do
    let otherKey ← createARTKey t v
    concatenateKeys ts row (key ++ otherKey)

/-- The first column and the remaining ones. -/
def generateKeys (t : KeyType) (ts : List KeyType) (row : Row (t :: ts)) :
    Except String (List Byte) := do
  let key ← createARTKey t row.1
  concatenateKeys ts row.2 key

/-- The keys of these rows are equal exactly when the rows are, compare as they do, and none
continues another. -/
def FaithfulKeys (t : KeyType) (ts : List KeyType) (rows : Row (t :: ts) → Prop) : Prop :=
  ∀ row row' key key', rows row → rows row' →
    generateKeys t ts row = .ok key → generateKeys t ts row' = .ok key' →
      (key = key' ↔ row = row') ∧ (key < key' ↔ Row.Less (t :: ts) row row') ∧
        (key <+: key' → key = key')

/-- Strings of a type that is not checked have no zero byte. -/
def Value.Plain : (t : KeyType) → Value t → Prop
  | .string type => fun (s : List Byte) => type.checked = false → 0 ∉ s
  | _ => fun _ => True

def Row.Plain : (ts : List KeyType) → Row ts → Prop
  | [] => fun _ => True
  | t :: ts => fun row => Value.Plain t row.1 ∧ Row.Plain ts row.2

theorem bigEndian_below (h : x % 256 ^ n < y % 256 ^ n) :
    Below (bigEndian n x) (bigEndian n y) := by
  induction n with
  | zero => simp [mod_one] at h
  | succ n ih =>
    rw [mod_pow_succ,mod_pow_succ] at h
    have hy := Nat.mod_lt y (Nat.pow_pos (n := n) (show 0 < 256 by decide))
    unfold bigEndian
    generalize 256 ^ n = M at *
    rcases lt_trichotomy (x / M % 256) (y / M % 256) with hlt | heq | hgt
    · exact .head hlt
    · rw [show Fin.ofNat 256 (x / M) = Fin.ofNat 256 (y / M) from Fin.ext heq]
      exact .cons _ (ih (by rw [heq] at h; omega))
    · have hmul := mul_le_mul_left M (succ_le_of_lt hgt)
      rw [mul_succ] at hmul
      omega

theorem bigEndian_add_mul (n x m : Nat) : bigEndian n (x + m * 256 ^ n) = bigEndian n x := by
  induction n generalizing m with
  | zero => rfl
  | succ n ih =>
    have hsplit : m * 256 ^ (n + 1) = m * 256 * 256 ^ n := by
      rw [pow_succ',mul_assoc]
    rw [hsplit,bigEndian,bigEndian,ih,Nat.add_mul_div_right _ _ (Nat.pow_pos (by decide))]
    congr 1
    simp [Fin.ofNat]

theorem bigEndian_zero (n : Nat) : bigEndian n 0 = replicate n 0 := by
  induction n with
  | zero => rfl
  | succ n ih =>
    rw [bigEndian,ih,Nat.zero_div]
    rfl

/-- Flipping the sign adds half of the range. -/
theorem encodeSigned_eq (size : Nat) (x : BitVec (8 * (size + 1))) :
    encodeSigned size x = bigEndian (size + 1) (x.toNat + 128 * 256 ^ size) := by
  have hflip : ∀ b : Byte, flipSign b = b + 128 := by decide +kernel
  rw [encodeSigned,bigEndian,bigEndian,bigEndian_add_mul,modifyHead_cons,hflip,
    Nat.add_mul_div_right _ _ (Nat.pow_pos (by decide))]
  congr 1
  apply Fin.ext
  simp [Fin.val_add]

theorem two_pow_eight_mul (n : Nat) : 2 ^ (8 * n) = 256 ^ n := by rw [Nat.pow_mul]

theorem ordered_unsigned (size : Nat) :
    OrderedCode (fun _ => True) unsignedLess
      fun x => (.ok (encodeUnsigned size x) : Except String (List Byte)) := by
  rintro a b _ _ _ _ ⟨⟩ ⟨⟩ hlt
  have ha := two_pow_eight_mul _ ▸ a.isLt
  have hb := two_pow_eight_mul _ ▸ b.isLt
  apply bigEndian_below
  rwa [mod_eq_of_lt ha,mod_eq_of_lt hb]

theorem ordered_signed (size : Nat) :
    OrderedCode (fun _ => True) signedLess
      fun x => (.ok (encodeSigned size x) : Except String (List Byte)) := by
  rintro a b _ _ _ _ ⟨⟩ ⟨⟩ hlt
  have ha := two_pow_eight_mul _ ▸ a.isLt
  have hb := two_pow_eight_mul _ ▸ b.isLt
  rw [signedLess,BitVec.toInt_eq_toNat_cond,BitVec.toInt_eq_toNat_cond,two_pow_eight_mul] at hlt
  rw [encodeSigned_eq,encodeSigned_eq]
  apply bigEndian_below
  rw [pow_succ] at *
  generalize 256 ^ size = M at *
  have hmod (z : Nat) (hz : z < M * 256) : (z + 128 * M) % (M * 256) =
      if 2 * z < M * 256 then z + 128 * M else z - 128 * M := by
    split
    · exact mod_eq_of_lt (by omega)
    · rw [mod_eq_sub_mod (by omega),mod_eq_of_lt (by omega)]
      omega
  split at hlt <;> split at hlt <;> simp [*] <;> omega

/-- Strings without zero bytes, closed by one. -/
theorem terminated_below {a b : List Byte} (ha : 0 ∉ a) (hb : 0 ∉ b) (hlt : List.Lex (· < ·) a b) :
    Below (a ++ [0]) (b ++ [0]) := by
  induction hlt with
  | nil => exact .head (Fin.pos_of_ne_zero fun hzero => hb (hzero ▸ mem_cons_self))
  | cons _ ih => exact .cons _ (ih (by simp_all) (by simp_all))
  | rel h => exact .head h

theorem createARTKey_string {s : List Byte} (hplain : Value.Plain (.string type) s)
    (h : createARTKey (.string type) s = .ok u) : 0 ∉ s ∧ u = s ++ [0] := by
  simp only [createARTKey] at h
  split at h
  · cases h
  · rename_i hcheck
    cases h
    cases hchecked : type.checked with
    | false => exact ⟨hplain hchecked,rfl⟩
    | true => exact ⟨by simpa [hchecked] using hcheck,rfl⟩

theorem ordered_createARTKey (t : KeyType) :
    OrderedCode (Value.Plain t) (Value.Less t) (createARTKey t) := by
  cases t with
  | boolean =>
    rintro a b _ _ _ _ ⟨⟩ ⟨⟩ hlt
    obtain ⟨rfl,rfl⟩ := Bool.lt_iff.mp hlt
    exact .head (by decide)
  | signed size => exact ordered_signed size
  | unsigned size => exact ordered_unsigned size
  | hugeint =>
    intro a b u v _ _
    exact (ordered_signed 7).pair (ordered_unsigned 7) ⟨trivial,trivial⟩ ⟨trivial,trivial⟩
  | uhugeint =>
    intro a b u v _ _
    exact (ordered_unsigned 7).pair (ordered_unsigned 7) ⟨trivial,trivial⟩ ⟨trivial,trivial⟩
  | string type =>
    intro a b u v hplain hplain' ha hb hlt
    obtain ⟨hza,rfl⟩ := createARTKey_string hplain ha
    obtain ⟨hzb,rfl⟩ := createARTKey_string hplain' hb
    exact terminated_below hza hzb hlt

instance : Std.Trichotomous (signedLess : BitVec w → BitVec w → Prop) :=
  Std.trichotomous_of_rel_or_eq_or_rel_swap fun {a b} =>
    (lt_trichotomy a.toInt b.toInt).imp_right (Or.imp_left BitVec.eq_of_toInt_eq)

instance : Std.Trichotomous (unsignedLess : BitVec w → BitVec w → Prop) :=
  Std.trichotomous_of_rel_or_eq_or_rel_swap fun {a b} =>
    (lt_trichotomy a.toNat b.toNat).imp_right (Or.imp_left BitVec.eq_of_toNat_eq)

theorem trichotomous_value (t : KeyType) : Std.Trichotomous (Value.Less t) := by
  cases t with
  | boolean => exact inferInstanceAs (Std.Trichotomous fun a b : Bool => a < b)
  | signed => exact inferInstanceAs (Std.Trichotomous signedLess)
  | unsigned => exact inferInstanceAs (Std.Trichotomous unsignedLess)
  | hugeint => exact inferInstanceAs (Std.Trichotomous (Prod.Lex signedLess unsignedLess))
  | uhugeint => exact inferInstanceAs (Std.Trichotomous (Prod.Lex unsignedLess unsignedLess))
  | string => exact inferInstanceAs (Std.Trichotomous fun a b : List Byte => a < b)

theorem trichotomous_row (ts : List KeyType) : Std.Trichotomous (Row.Less ts) := by
  induction ts with
  | nil => exact ⟨fun _ _ _ _ => rfl⟩
  | cons t ts ih =>
    have := trichotomous_value t
    exact inferInstanceAs (Std.Trichotomous (Prod.Lex (Value.Less t) (Row.Less ts)))

/-- The keys of the columns one behind the other. -/
def rowCode : (ts : List KeyType) → Row ts → Except String (List Byte)
  | [] => fun _ => .ok []
  | t :: ts => pairCode (createARTKey t) (rowCode ts)

theorem concatenateKeys_eq (ts : List KeyType) (row : Row ts) (key : List Byte) :
    concatenateKeys ts row key = (rowCode ts row).map (key ++ ·) := by
  induction ts generalizing key with
  | nil => simp [concatenateKeys,rowCode,Except.map]
  | cons t ts ih =>
    obtain ⟨v,row⟩ := row
    simp only [concatenateKeys,rowCode,pairCode,ih]
    cases createARTKey t v with
    | error e => rfl
    | ok u => cases rowCode ts row <;> simp [bind,Except.bind,Except.map]

theorem generateKeys_eq (t : KeyType) (ts : List KeyType) (row : Row (t :: ts)) :
    generateKeys t ts row = rowCode (t :: ts) row := by
  simp only [generateKeys,concatenateKeys_eq,rowCode,pairCode]
  cases createARTKey t row.1 with
  | error e => rfl
  | ok u => cases rowCode ts row.2 <;> rfl

theorem ordered_rowCode (ts : List KeyType) :
    OrderedCode (Row.Plain ts) (Row.Less ts) (rowCode ts) := by
  induction ts with
  | nil => exact fun _ _ _ _ _ _ _ _ hlt => hlt.elim
  | cons t ts ih => exact (ordered_createARTKey t).pair ih

theorem faithfulKeys_plain (t : KeyType) (ts : List KeyType) :
    FaithfulKeys t ts (Row.Plain (t :: ts)) := by
  intro row row' key key' hplain hplain' hkey hkey'
  rw [generateKeys_eq] at hkey hkey'
  have := trichotomous_row (t :: ts)
  exact (ordered_rowCode (t :: ts)).faithful hplain hplain' hkey hkey'

/-- Where all types are checked, no row is left out. -/
theorem plain_of_checked (h : ∀ type, .string type ∈ ts → type.checked = true) (row : Row ts) :
    Row.Plain ts row := by
  induction ts with
  | nil => trivial
  | cons t ts ih =>
    refine ⟨?_,ih (fun type ht => h type (mem_cons_of_mem _ ht)) row.2⟩
    cases t with
    | string type =>
      intro hun
      simp [h type mem_cons_self] at hun
    | _ => trivial

/-- The value of which all bytes of the key are zero. -/
def Value.zero : (t : KeyType) → Value t
  | .boolean => false
  | .signed size => BitVec.ofNat _ (128 * 256 ^ size)
  | .unsigned _ => 0#_
  | .hugeint => (BitVec.ofNat _ (128 * 256 ^ 7), 0)
  | .uhugeint => (0, 0)
  | .string _ => ([] : List Byte)

theorem createARTKey_zero (t : KeyType) : ∃ n, createARTKey t (Value.zero t) =
    .ok (replicate n 0) := by
  have hunsigned (size : Nat) : encodeUnsigned size 0 = replicate (size + 1) 0 := bigEndian_zero _
  have hsigned (size : Nat) : encodeSigned size (BitVec.ofNat _ (128 * 256 ^ size)) =
      replicate (size + 1) 0 := by
    rw [encodeSigned_eq,BitVec.toNat_ofNat,two_pow_eight_mul,mod_eq_of_lt (by
      rw [pow_succ,mul_comm]
      exact Nat.mul_lt_mul_of_pos_left (by decide) (Nat.pow_pos (by decide))),← bigEndian_zero,
      ← bigEndian_add_mul _ 0 1,pow_succ]
    congr 1
    omega
  cases t with
  | boolean => exact ⟨1,rfl⟩
  | signed size => exact ⟨size + 1,congrArg _ (hsigned size)⟩
  | unsigned size => exact ⟨size + 1,congrArg _ (hunsigned size)⟩
  | hugeint => exact ⟨16,congrArg _ (congrArg₂ _ (hsigned 7) (hunsigned 7))⟩
  | uhugeint => exact ⟨16,congrArg _ (congrArg₂ _ (hunsigned 7) (hunsigned 7))⟩
  | string type => exact ⟨1,by simp [createARTKey,Value.zero]⟩

theorem rowCode_cons_zero (hv : createARTKey t v = .ok (replicate n 0))
    (hrow : rowCode ts row = .ok (replicate m 0)) :
    rowCode (t :: ts) (v, row) = .ok (replicate (n + m) 0) := by
  simp [rowCode,pairCode,hv,hrow,bind,Except.bind]

theorem exists_zero_row (ts : List KeyType) : ∃ row n, rowCode ts row = .ok (replicate n 0) := by
  induction ts with
  | nil => exact ⟨(),0,rfl⟩
  | cons t ts ih =>
    obtain ⟨row,m,hrow⟩ := ih
    obtain ⟨n,hv⟩ := createARTKey_zero t
    exact ⟨(Value.zero t,row),n + m,rowCode_cons_zero hv hrow⟩

/-- With an unchecked string type there are keys of zero bytes of two lengths that follow each
other; the strings may be bit strings of eight and sixteen zeros. -/
theorem exists_zero_rows (hun : type.checked = false) (h : KeyType.string type ∈ ts) :
    ∃ row row' n, rowCode ts row = .ok (replicate n 0) ∧
      rowCode ts row' = .ok (replicate (n + 1) 0) := by
  induction ts with
  | nil => cases h
  | cons t ts ih =>
    rcases mem_cons.mp h with rfl | hmem
    · obtain ⟨row,m,hrow⟩ := exists_zero_row ts
      have hstring (k : Nat) : createARTKey (.string type) (replicate k (0 : Byte)) =
          .ok (replicate (k + 1) 0) := by
        simp [createARTKey,hun,replicate_succ']
      have hlong := rowCode_cons_zero (hstring 3) hrow
      rw [show 3 + 1 + m = 3 + m + 1 by omega] at hlong
      exact ⟨_,_,3 + m,rowCode_cons_zero (hstring 2) hrow,hlong⟩
    · obtain ⟨row,row',m,hrow,hrow'⟩ := ih hmem
      obtain ⟨n,hv⟩ := createARTKey_zero t
      exact ⟨_,_,n + m,rowCode_cons_zero hv hrow,(rowCode_cons_zero hv hrow' :)⟩

/-- Compound keys are faithful for all rows exactly if every string column has a type that is
checked for zero bytes. They always are for rows whose other strings have none. -/
theorem faithfulKeys_iff (t : KeyType) (ts : List KeyType) :
    (FaithfulKeys t ts (fun _ => True) ↔ ∀ type, .string type ∈ t :: ts → type.checked = true) ∧
      FaithfulKeys t ts (Row.Plain (t :: ts)) := by
  have hplain := faithfulKeys_plain t ts
  refine ⟨⟨?_,?_⟩,hplain⟩
  · intro h type hmem
    by_contra hun
    obtain ⟨row,row',n,hrow,hrow'⟩ := exists_zero_rows (by simpa using hun) hmem
    rw [← generateKeys_eq] at hrow hrow'
    have hsame := (h row row' _ _ trivial trivial hrow hrow').2.2 ⟨[0],by rw [replicate_succ']⟩
    simpa using congrArg length hsame
  · intro h row row' key key' _ _
    exact hplain row row' key key' (plain_of_checked h row) (plain_of_checked h row')

/-- The bit strings of eight and of sixteen zeros: the first key is continued by the second. -/
theorem bitStrings_prefixed :
    generateKeys (.string ⟨.bit, ""⟩) [] (([0, 0] : List Byte), ()) = .ok [0, 0, 0] ∧
    generateKeys (.string ⟨.bit, ""⟩) [] (([0, 0, 0] : List Byte), ()) = .ok [0, 0, 0, 0] ∧
    ([0, 0, 0] : List Byte) <+: [0, 0, 0, 0] :=
  ⟨rfl,rfl,by decide⟩

end PredTrans.Index

import PredTrans.Index.ArtScan
import PredTrans.Index.ArtMultimap

/-!
Range scans are exact: they visit the keys of the range in ascending order and return all their
row ids, or fail when there are more than allowed.
-/

namespace PredTrans.Index

open Library Library.Multimap List ArtKey

theorem keyCompare_iff (as bs : List Byte) : (keyGreater as bs = true ↔ bs < as) ∧
    (keyGreaterEqual as bs = true ↔ bs < as ∨ bs = as) := by
  induction as generalizing bs with
  | nil => cases bs <;> simp [keyGreater,keyGreaterEqual]
  | cons a as ih =>
    cases bs with
    | nil => simp [keyGreater,keyGreaterEqual]
    | cons b bs =>
      rcases lt_trichotomy a b with h | rfl | h
      · simp [keyGreater,keyGreaterEqual,h,h.not_gt,h.ne',cons_lt_cons_iff]
      · simp [keyGreater,keyGreaterEqual,ih]
      · simp [keyGreater,keyGreaterEqual,h,cons_lt_cons_iff]

theorem keyGreater_iff (as bs : List Byte) : keyGreater as bs = true ↔ bs < as :=
  (keyCompare_iff as bs).1

theorem keyGreaterEqual_iff (as bs : List Byte) :
    keyGreaterEqual as bs = true ↔ bs < as ∨ bs = as :=
  (keyCompare_iff as bs).2

/-- The key is not below a lower bound. -/
def aboveLower (equal : Bool) (lower w : List Byte) : Bool :=
  decide (lower < w) || equal && decide (lower = w)

/-- The key is not above an upper bound. -/
def belowUpper (equal : Bool) (upper w : List Byte) : Bool :=
  decide (w < upper) || equal && decide (w = upper)

theorem aboveLower_cons_lt (equal : Bool) (h : b < a) (s w : List Byte) :
    aboveLower equal (b :: s) (a :: w) = true := by
  simp [aboveLower,cons_lt_cons_iff,h]

theorem aboveLower_cons_gt (equal : Bool) (h : a < b) (s w : List Byte) :
    aboveLower equal (b :: s) (a :: w) = false := by
  simp [aboveLower,cons_lt_cons_iff,not_lt_of_gt h,ne_of_gt h]

theorem aboveLower_append (equal : Bool) (p s w : List Byte) :
    aboveLower equal (p ++ s) (p ++ w) = aboveLower equal s w := by
  induction p with
  | nil => rfl
  | cons b p ih => simpa [aboveLower] using ih

/-- The scan is past its bound at the keys that are not below it. -/
theorem pastUpperBound_eq (h : upper.len ≠ 0) (equal : Bool) (w : List Byte) :
    Iterator.pastUpperBound upper equal w = !belowUpper equal upper.bytes w := by
  rw [Bool.eq_iff_iff]
  rcases lt_trichotomy w upper.bytes with hlt | heq | hgt
  · have hne := ne_of_lt hlt
    cases equal <;> simp [Iterator.pastUpperBound,h,keyGreater_iff,keyGreaterEqual_iff,
      belowUpper,hlt,not_lt_of_gt hlt,hne.symm]
  · cases equal <;> simp [Iterator.pastUpperBound,h,keyGreater_iff,keyGreaterEqual_iff,
      belowUpper,heq]
  · have hne := ne_of_gt hgt
    cases equal <;> simp [Iterator.pastUpperBound,h,keyGreater_iff,keyGreaterEqual_iff,
      belowUpper,hgt,not_lt_of_gt hgt,hne]

namespace Node

variable {layout : Layout} {children : Nat → Node}

theorem exists_cons_of_mem (h : entry ∈ entriesFrom layout children start) :
    ∃ (byte : Byte) (w : List Byte), entry.1 = byte :: w ∧ start ≤ byte.val := by
  obtain ⟨byte,hle,i,_,hmem⟩ := mem_entriesFrom.mp h
  obtain ⟨e,_,rfl⟩ := mem_map.mp hmem
  exact ⟨byte,e.1,rfl,hle⟩

/-- Below the next byte of the bound no entry is in the range. -/
theorem filter_entriesFrom (equal : Bool) (byte : Byte) (s : List Byte) :
    (entriesFrom layout children 0).filter (fun e => aboveLower equal (byte :: s) e.1) =
      (entriesFrom layout children byte.val).filter
        (fun e => aboveLower equal (byte :: s) e.1) := by
  have hskip : ∀ n, n ≤ byte.val →
      (entriesFrom layout children 0).filter (fun e => aboveLower equal (byte :: s) e.1) =
        (entriesFrom layout children n).filter
          (fun e => aboveLower equal (byte :: s) e.1) := by
    intro n hn
    induction n with
    | zero => rfl
    | succ n ih =>
      have hlt : n < 256 := by
        omega
      have hnone : (entriesAt layout children ⟨n,hlt⟩).filter
          (fun e => aboveLower equal (byte :: s) e.1) = [] := by
        apply filter_eq_nil_iff.mpr
        intro e he
        unfold entriesAt at he
        split at he
        · obtain ⟨e',_,rfl⟩ := mem_map.mp he
          have hb : (⟨n,hlt⟩ : Byte) < byte := hn
          rw [Bool.not_eq_true]
          exact aboveLower_cons_gt equal hb s e'.1
        · cases he
      rw [ih (by omega),entriesFrom_step hlt,filter_append,hnone,nil_append]
  exact hskip byte.val le_rfl

/-- Behind the next byte of the bound every entry is in the range. -/
theorem filter_entriesFrom_after (equal : Bool) (byte : Byte) (s : List Byte)
    (hstart : byte.val < start) :
    (entriesFrom layout children start).filter (fun e => aboveLower equal (byte :: s) e.1) =
      entriesFrom layout children start := by
  apply filter_eq_self.mpr
  intro e he
  obtain ⟨b,w,heq,hle⟩ := exists_cons_of_mem he
  rw [heq]
  exact aboveLower_cons_lt equal (show byte < b from Nat.lt_of_lt_of_le hstart hle) s w

theorem filter_map_prepend (equal : Bool) (p s : List Byte) (l : List Entry) :
    (l.map (prepend p)).filter (fun e => aboveLower equal (p ++ s) e.1) =
      (l.filter fun e => aboveLower equal s e.1).map (prepend p) := by
  rw [filter_map]
  congr 1
  apply filter_congr
  intro e _
  exact aboveLower_append equal p s e.1

end Node

namespace Iterator

variable {key : ArtKey} {node : Node} {depth : Nat}

/-- The bytes that the prefix shares with the key do not decide the comparison. -/
theorem compareData_append {before rest t : List Byte} (h : key.suffix depth = before ++ t) :
    compareData key (before ++ rest) depth = compareData key rest (depth + before.length) := by
  induction before generalizing depth with
  | nil => rfl
  | cons byte before ih =>
    have hlt : depth < key.len := key.lt_of_suffix_ne_nil (by simp [h])
    rw [key.suffix_of_lt hlt] at h
    obtain ⟨hbyte,hrest⟩ := List.cons.inj h
    have hindex : depth + 1 + before.length = depth + (byte :: before).length := by
      simp
      omega
    subst hbyte
    simp only [cons_append,compareData,lt_irrefl,if_false]
    rw [ih hrest,hindex]

theorem keyEqual_bytes (key : ArtKey) : keyEqual key.bytes key = true := by
  simp [keyEqual,bytes,suffix]

theorem take_suffix {bytes : List Byte} {rest : List Byte} (h : key.suffix depth = bytes ++ rest) :
    key.bytes.take depth ++ bytes = key.bytes.take (depth + bytes.length) := by
  have hdrop : key.bytes.drop depth = bytes ++ rest := by
    simpa [ArtKey.bytes,ArtKey.suffix] using h
  rw [take_add,hdrop,take_left']
  rfl

section

variable (equal : Bool) {it : Iterator} (hstack : StackWf it.nodes)
include hstack

/-- The leaf of the bound itself is skipped where the bound is exclusive. -/
theorem lowerBound_leaf {leaf : Node} (hentries : leaf.entries = [([], leaf.rowIds)])
    (hsuffix : key.suffix depth = []) (hdepth : depth ≤ key.len)
    (hkey : it.currentKey = key.bytes.take depth) :
    Yields (if !equal && keyEqual it.currentKey key then it.next
        else (true, { it with lastLeaf := leaf }))
      ((leaf.entries.filter fun e => aboveLower equal (key.suffix depth) e.1).map
        (prepend it.currentKey) ++ pending it.nodes it.currentKey) := by
  have hend : depth = key.len := by
    have := congrArg List.length hsuffix
    rw [key.length_suffix,length_nil] at this
    omega
  have hbytes : it.currentKey = key.bytes := by
    rw [hkey,hend]
    apply take_of_length_le
    rw [bytes,key.length_suffix]
    omega
  cases equal with
  | false =>
    have hequal : keyEqual it.currentKey key = true := hbytes ▸ keyEqual_bytes key
    simpa [hequal,hentries,hsuffix,aboveLower] using next_spec hstack
  | true =>
    refine ⟨hstack,by simp,fun _ => ?_⟩
    simp [hentries,hsuffix,aboveLower,remaining,prepend]

/-- Where the prefix leaves the key, all leaves below it are in the range or none is. -/
theorem lowerBound_diverge {before after s : List Byte} {byte other : Byte} {next : Node}
    (hwf : (Node.prefixed (before ++ byte :: after) next).Wf) (hne : byte ≠ other) :
    Yields (if byte < other
        then (it.push (before ++ byte :: after) (.prefixed (before ++ byte :: after) next) 0).next
        else (true, findMinimum next
          (it.push (before ++ byte :: after) (.prefixed (before ++ byte :: after) next) 0)))
      (((Node.prefixed (before ++ byte :: after) next).entries.filter fun e =>
          aboveLower equal (before ++ other :: s) e.1).map (prepend it.currentKey) ++
        pending it.nodes it.currentKey) := by
  have hpush : StackWf
      (it.push (before ++ byte :: after) (.prefixed (before ++ byte :: after) next) 0).nodes :=
    forall_mem_cons.mpr ⟨hwf,hstack⟩
  have habove : ∀ e : Entry, aboveLower equal (before ++ other :: s)
      (prepend (before ++ byte :: after) e).1 =
        aboveLower equal (other :: s) (byte :: (after ++ e.1)) := by
    intro e
    have hskip := aboveLower_append equal before (other :: s) (byte :: (after ++ e.1))
    simpa [prepend] using hskip
  split
  case isTrue hlt =>
    have hnone : (Node.prefixed (before ++ byte :: after) next).entries.filter (fun e =>
        aboveLower equal (before ++ other :: s) e.1) = [] := by
      apply filter_eq_nil_iff.mpr
      intro e he
      obtain ⟨e',_,rfl⟩ := mem_map.mp he
      rw [habove,aboveLower_cons_gt equal hlt]
      simp
    have hnext := next_spec hpush
    simp only [push,pending_prefixed] at hnext
    simpa [hnone,push] using hnext
  case isFalse hnot =>
    have hgt : other < byte := lt_of_le_of_ne (not_lt.mp hnot) hne.symm
    have hall : (Node.prefixed (before ++ byte :: after) next).entries.filter (fun e =>
        aboveLower equal (before ++ other :: s) e.1) =
          next.entries.map (prepend (before ++ byte :: after)) := by
      apply filter_eq_self.mpr
      intro e he
      obtain ⟨e',_,rfl⟩ := mem_map.mp he
      rw [habove,aboveLower_cons_lt equal hgt]
    have hmin := findMinimum_spec hwf.2.2.2 hwf.2.2.1 hpush
    simp only [push,pending_prefixed] at hmin
    rw [hall,map_prepend_prepend]
    exact hmin

/-- At an inner node the bytes below that of the bound are skipped, and those behind it are all in
the range. -/
theorem lowerBound_inner {layout : Layout} {children : Nat → Node}
    (hwf : (Node.inner layout children).Wf) {byte : Byte} {s : List Byte}
    (hnone : layout.getNextChild children byte = none → result = it.next)
    (hafter : ∀ b i, layout.getNextChild children byte = some (b, i) → byte < b →
      result = (true, findMinimum (children i) (it.push [b] (.inner layout children) b)))
    (hequal : ∀ i, layout.getNextChild children byte = some (byte, i) →
      Yields result (((children i).entries.filter fun e => aboveLower equal s e.1).map (prepend
      (it.currentKey ++ [byte])) ++ pending ((.inner layout children, byte) :: it.nodes)
      (it.currentKey ++ [byte]))) :
    Yields result
      (((Node.inner layout children).entries.filter fun e =>
          aboveLower equal (byte :: s) e.1).map (prepend it.currentKey) ++
        pending it.nodes it.currentKey) := by
  rw [Node.entries_inner,Node.filter_entriesFrom]
  cases hget : layout.getNextChild children byte with
  | none =>
    rw [hnone hget,Node.entriesFrom_none hget]
    simpa using next_spec hstack
  | some found =>
    obtain ⟨b,i⟩ := found
    obtain ⟨hle,hslot,_⟩ := Layout.getNextChild_some hwf.1 hget
    rcases lt_or_eq_of_le hle with hlt | rfl
    · have hpush : StackWf (it.push [b] (.inner layout children) b).nodes :=
        forall_mem_cons.mpr ⟨hwf,hstack⟩
      have hall : (Node.entriesFrom layout children byte.val).filter
          (fun e => aboveLower equal (byte :: s) e.1) =
            Node.entriesFrom layout children byte.val := by
        have hskip : Node.entriesFrom layout children byte.val =
            Node.entriesFrom layout children b.val :=
          Node.entriesFrom_skip hle b.isLt.le
            fun x hx hxb => (Layout.getNextChild_some hwf.1 hget).2.2 x hx hxb
        rw [hskip]
        exact Node.filter_entriesFrom_after equal byte s hlt
      have hmin := findMinimum_spec (hwf.2.2 b i hslot) (Node.child_ne_empty hwf.1 hslot) hpush
      simp only [push,pending_inner] at hmin
      rw [hall,Node.entriesFrom_some hwf.1 hget,hafter b i hget hlt,map_append,
        map_prepend_prepend,append_assoc]
      exact hmin
    · have hchild := hequal i hget
      rw [pending_inner] at hchild
      rw [Node.entriesFrom_some hwf.1 hget,filter_append,
        Node.filter_entriesFrom_after equal byte s (Nat.lt_succ_self _),
        show byte :: s = [byte] ++ s from rfl,Node.filter_map_prepend,map_append,
        map_prepend_prepend,append_assoc]
      exact hchild

/-- Seeking the lower bound below a node goes to the first leaf that satisfies it. -/
theorem lowerBound_spec (hwf : node.Wf) (hdepth : depth ≤ key.len)
    (hapart : node.rows.Apart (key.suffix depth)) (hempty : node = .empty → it.nodes = [])
    (hkey : it.currentKey = key.bytes.take depth) :
    Yields (lowerBound key equal node depth it)
      ((node.entries.filter fun e => aboveLower equal (key.suffix depth) e.1).map
        (prepend it.currentKey) ++ pending it.nodes it.currentKey) := by
  induction node generalizing depth it with
  | empty =>
    refine ⟨hstack,fun _ => ?_,by simp [lowerBound]⟩
    simp [Node.entries,hempty rfl,pending]
  | leafInlined rowId | leaf segments =>
    exact lowerBound_leaf equal hstack rfl (Node.suffix_of_isLeaf rfl hwf hapart) hdepth hkey
  | prefixed data next ih =>
    rcases Node.mismatch_cases key data hdepth (Node.eq_of_prefix_data hwf hapart) with
      ⟨_,hle,hsuffix⟩ | ⟨before,byte,after,rfl,_,hlt,hne,hsuffix⟩
    · have hcompare : compareData key data depth = .eq := by
        have := @compareData_append key depth data [] _ hsuffix
        simpa [compareData] using this
      have hpush : StackWf (it.push data (.prefixed data next) 0).nodes :=
        forall_mem_cons.mpr ⟨hwf,hstack⟩
      have hkey' : it.currentKey ++ data = key.bytes.take (depth + data.length) := by
        rw [hkey]
        exact take_suffix hsuffix
      rw [hsuffix] at hapart ⊢
      have hnext := ih hpush hwf.2.2.2 hle hapart.under (fun h => absurd h hwf.2.2.1) hkey'
      simp only [push,pending_prefixed] at hnext
      simp only [lowerBound,hcompare]
      rw [Node.entries,Node.filter_map_prepend,map_prepend_prepend]
      exact hnext
    · have hcompare : compareData key (before ++ byte :: after) depth =
          if byte < key.data (depth + before.length) then .lt else .gt := by
        rw [compareData_append hsuffix,compareData]
        split
        · rfl
        case isFalse hnot =>
          rw [if_pos (lt_of_le_of_ne (not_lt.mp hnot) hne.symm)]
      rw [hsuffix]
      have hdiverge := @lowerBound_diverge equal it hstack before after
        (key.suffix (depth + before.length + 1)) byte _ next hwf hne
      simp only [lowerBound,hcompare]
      split at hdiverge
      case isTrue h => simpa only [if_pos h] using hdiverge
      case isFalse h => simpa only [if_neg h] using hdiverge
  | inner layout children ih =>
    have hlt := Node.depth_lt_of_inner hwf hapart
    have hchild := Node.apart_child hlt hapart
    have hsuffix := key.suffix_of_lt hlt
    rw [hsuffix]
    apply lowerBound_inner equal hstack hwf
    · intro hget
      simp [lowerBound,hget]
    · intro b i hget hb
      simp [lowerBound,hget,hb]
    intro i hget
    obtain ⟨_,hslot,_⟩ := Layout.getNextChild_some hwf.1 hget
    rw [Node.childRows_some hslot] at hchild
    have hpush : StackWf (it.push [key.data depth] (.inner layout children)
        (key.data depth)).nodes := forall_mem_cons.mpr ⟨hwf,hstack⟩
    have hkey' : it.currentKey ++ [key.data depth] = key.bytes.take (depth + 1) := by
      rw [hkey]
      exact take_suffix hsuffix
    have hrec := ih i hpush (hwf.2.2 _ i hslot) hlt hchild
      (fun h => absurd h (Node.child_ne_empty hwf.1 hslot)) hkey'
    simpa [lowerBound,hget,push] using hrec

end

/-- The loop of the scan, over the leaves that it visits. -/
def scanEntries (past : List Byte → Bool) (maxCount : Nat) :
    List Entry → List RowId → Bool × List RowId
  | [], resultIds => (true, resultIds)
  | entry :: rest, resultIds =>
    if past entry.1 then (true, resultIds)
    else if maxCount < resultIds.length + entry.2.length then (false, resultIds)
    else scanEntries past maxCount rest (resultIds ++ entry.2)

theorem scan_eq (upper : ArtKey) (maxCount : Nat) (equal : Bool) (hstack : StackWf it.nodes)
    (hfuel : it.remaining.length ≤ fuel) (resultIds : List RowId) :
    scan upper maxCount equal fuel it resultIds =
      some (scanEntries (pastUpperBound upper equal) maxCount it.remaining resultIds) := by
  induction fuel generalizing it resultIds with
  | zero => simp [remaining] at hfuel
  | succ fuel ih =>
    have hnext := next_spec hstack
    simp only [scan,remaining,scanEntries]
    split
    · rfl
    split
    · rfl
    split
    case isTrue hmore =>
      have hrest := hnext.first hmore
      rw [hrest]
      apply ih hnext.stack
      rw [← hrest]
      simpa [remaining] using hfuel
    case isFalse hdone =>
      rw [hnext.none_left (by simpa using hdone),scanEntries]

/-- The row ids of the leaves that are not past the bound. -/
def idsWithin (past : List Byte → Bool) (entries : List Entry) : List RowId :=
  (entries.filter fun e => !past e.1).flatMap Prod.snd

/-- The leaves ascend, so the first one past the bound ends the range. -/
theorem scanEntries_spec (hpast : ∀ v w, v < w → past v → past w) (maxCount : Nat)
    (hsorted : entries.Pairwise fun a b => a.1 < b.1) {resultIds : List RowId}
    (hcount : resultIds.length ≤ maxCount) :
    (resultIds.length + (idsWithin past entries).length ≤ maxCount →
      scanEntries past maxCount entries resultIds =
        (true, resultIds ++ idsWithin past entries)) ∧
    (maxCount < resultIds.length + (idsWithin past entries).length →
      (scanEntries past maxCount entries resultIds).1 = false) := by
  induction entries generalizing resultIds with
  | nil =>
    simp only [scanEntries,idsWithin,filter_nil,flatMap_nil,length_nil,
      append_nil]
    exact ⟨fun _ => trivial,fun h => by omega⟩
  | cons entry rest ih =>
    obtain ⟨hfirst,hrest⟩ := pairwise_cons.mp hsorted
    by_cases hentry : past entry.1 = true
    · have hnone : idsWithin past (entry :: rest) = [] := by
        have hall : (entry :: rest).filter (fun e => !past e.1) = [] := by
          apply filter_eq_nil_iff.mpr
          intro e he
          rcases mem_cons.mp he with rfl | he
          · simp [hentry]
          · simp [hpast _ _ (hfirst e he) hentry]
        simp [idsWithin,hall]
      rw [hnone]
      simp only [scanEntries,hentry,if_true,append_nil,length_nil]
      exact ⟨fun _ => trivial,fun h => by omega⟩
    · have hids : idsWithin past (entry :: rest) = entry.2 ++ idsWithin past rest := by
        simp [idsWithin,hentry]
      rw [hids]
      simp only [scanEntries,hentry,length_append]
      by_cases hover : maxCount < resultIds.length + entry.2.length
      · simp only [hover,if_true]
        exact ⟨fun h => by omega,fun _ => rfl⟩
      · have hstep := @ih hrest (resultIds ++ entry.2) (by simpa using hover)
        simp only [length_append,append_assoc,Nat.add_assoc] at hstep
        simpa only [hover,Bool.false_eq_true,if_false] using hstep

end Iterator

open Iterator

/-- A search returns the row ids in this order if there are at most `maxCount` of them, and fails
otherwise. -/
structure RangeExact (result : Option (Bool × List RowId)) (maxCount : Nat)
    (ids : List RowId) : Prop where
  within : ids.length ≤ maxCount → result = some (true, ids)
  beyond : maxCount < ids.length → ∃ visited, result = some (false, visited)

/-- A scan from the first of ascending leaves. -/
theorem rangeExact_scan (h : Yields start target) (hsorted : target.Pairwise fun a b => a.1 < b.1)
    (hpast : ∀ v w, v < w → pastUpperBound upper equal v → pastUpperBound upper equal w)
    (hfuel : target.length ≤ fuel) (maxCount : Nat) :
    RangeExact (if start.1 then scan upper maxCount equal fuel start.2 [] else some (true, []))
      maxCount (idsWithin (pastUpperBound upper equal) target) := by
  cases hstart : start.1 with
  | false =>
    rw [h.none_left hstart]
    exact ⟨fun _ => rfl,fun hover => by simp [idsWithin] at hover⟩
  | true =>
    have htarget := h.first hstart
    obtain ⟨hwithin,hover⟩ :=
      scanEntries_spec hpast maxCount hsorted (show ([] : List RowId).length ≤ maxCount by simp)
    rw [if_pos rfl,scan_eq upper maxCount equal h.stack (htarget ▸ hfuel),← htarget]
    refine ⟨fun hle => ?_,fun hlt => ?_⟩
    · rw [hwithin (by simpa using hle),nil_append]
    · exact ⟨_,congrArg some (Prod.ext (hover (by simpa using hlt)) rfl)⟩

/-- Row ids of keys in the order of the keys. -/
def idsOf (tree : Node) (ks : List (List Byte)) : List RowId := ks.flatMap tree.rows

/-- The keys that a tree holds, in ascending order. -/
def keysOf (tree : Node) : List (List Byte) := tree.entries.map Prod.fst

theorem idsWithin_filter (hwf : tree.Wf) (past inLower : List Byte → Bool) :
    idsWithin past (tree.entries.filter fun e => inLower e.1) =
      idsOf tree ((keysOf tree).filter fun w => inLower w && !past w) := by
  have hrows : ∀ e ∈ tree.entries, e.2 = tree.rows e.1 :=
    fun e he => ((Node.mem_entries hwf).mp he).1
  unfold idsWithin idsOf keysOf
  rw [filter_filter,filter_map,flatMap_map]
  simp only [Function.comp_def,Bool.and_comm]
  apply flatMap_congr
  intro e he
  exact hrows e (mem_of_mem_filter he)

theorem pastUpperBound_mono (v w : List Byte) (h : v < w)
    (hpast : pastUpperBound upper equal v = true) : pastUpperBound upper equal w = true := by
  by_cases hlen : upper.len = 0
  · simp [pastUpperBound,hlen] at hpast
  simp only [pastUpperBound,hlen,if_false] at hpast ⊢
  split at hpast
  case isTrue hequal =>
    rw [if_pos hequal,keyGreater_iff]
    exact lt_trans ((keyGreater_iff v _).mp hpast) h
  case isFalse hequal =>
    rw [if_neg hequal,keyGreaterEqual_iff]
    rcases (keyGreaterEqual_iff v _).mp hpast with hlt | heq
    · exact .inl (lt_trans hlt h)
    · exact .inl (heq ▸ h)

section Content

variable {keys : Set (List Byte)} {tree : Node} {stored : Multiset (List Byte × RowId)}

theorem sorted_filter (tree : Node) (p : Entry → Bool) :
    (tree.entries.filter p).Pairwise fun a b => a.1 < b.1 :=
  (Node.entries_ascending tree).sublist filter_sublist

theorem searchLess_eq (hupper : upper.len ≠ 0) (hne : tree.isEmpty = false) (equal : Bool)
    (maxCount : Nat) (hfuel : fuel ≠ 0) :
    searchLess fuel tree upper equal maxCount =
      scan upper maxCount equal fuel (findMinimum tree initial) [] := by
  obtain ⟨fuel,rfl⟩ := Nat.exists_eq_succ_of_ne_zero hfuel
  simp only [searchLess,hne,Bool.false_eq_true,if_false]
  split
  case isTrue hgreater =>
    have hpast : pastUpperBound upper equal (findMinimum tree initial).currentKey = true := by
      have hlt := (keyGreater_iff _ _).mp hgreater
      rw [pastUpperBound_eq hupper]
      simp [belowUpper,not_lt_of_gt hlt,ne_of_gt hlt]
    simp [scan,hpast]
  case isFalse => rfl

section

variable (h : Content keys tree stored) (hkeys : PrefixFree keys) {lower : ArtKey}
  (hfuel : (keysOf tree).length ≤ fuel) (equal : Bool) (maxCount : Nat)
    (hlower : lower.bytes ∈ keys)
include h

theorem Content.mem_keysOf (w : List Byte) : w ∈ keysOf tree ↔ ∃ rowId, (w, rowId) ∈ stored := by
  have hrows : w ∈ keysOf tree ↔ tree.rows w ≠ [] := by
    simp only [keysOf,mem_map,Prod.exists,exists_and_right,exists_eq_right]
    constructor
    · rintro ⟨ids,hmem⟩
      obtain ⟨rfl,hne⟩ := (Node.mem_entries h.wf).mp hmem
      exact hne
    · exact fun hne => ⟨_,(Node.mem_entries h.wf).mpr ⟨rfl,hne⟩⟩
  rw [hrows,Ne,h.rows_eq_nil,valuesAt_eq_zero]
  push Not
  rfl

include hkeys

/-- A bound of the key space is not empty, or nothing is stored. -/
theorem Content.len_ne_zero (hne : tree ≠ .empty) {key : ArtKey} (hkey : key.bytes ∈ keys) :
    key.len ≠ 0 := by
  intro hlen
  obtain ⟨w,hw⟩ := Node.exists_rows h.wf hne
  obtain ⟨rowId,hmem⟩ := Multiset.exists_mem_of_ne_zero (mt h.rows_eq_nil.mpr hw)
  have hstored := mem_valuesAt.mp hmem
  have hbytes : key.bytes = [] := by
    apply eq_nil_of_length_eq_zero
    rw [bytes,key.length_suffix,hlen]
  have heq := hkeys key.bytes hkey w (h.keys_mem _ hstored) (hbytes ▸ nil_prefix)
  exact h.keys_ne_nil _ hstored (heq.symm.trans hbytes)

include hlower in
theorem Content.yields_lowerBound :
    Yields (lowerBound lower equal tree 0 initial)
      (tree.entries.filter fun e => aboveLower equal lower.bytes e.1) := by
  have hspec := lowerBound_spec equal (show StackWf initial.nodes by simp [StackWf,initial]) h.wf
    (Nat.zero_le lower.len) (h.apart hkeys hlower) (fun _ => rfl) (by simp [initial])
  simpa [initial,pending,map_prepend_nil,bytes] using hspec

include hfuel

include hlower in
theorem Content.searchGreater_exact :
    RangeExact (searchGreater fuel tree lower equal maxCount) maxCount
      (idsOf tree ((keysOf tree).filter fun w => aboveLower equal lower.bytes w)) := by
  cases hempty : tree.isEmpty with
  | true =>
    cases tree <;> simp [Node.isEmpty] at hempty
    exact ⟨fun _ => rfl,fun hover => by simp [idsOf,keysOf,Node.entries] at hover⟩
  | false =>
    have hlen := (length_filter_le (fun e : Entry => aboveLower equal lower.bytes e.1)
      tree.entries).trans (by simpa [keysOf] using hfuel)
    have hscan := rangeExact_scan (h.yields_lowerBound hkeys equal hlower) (sorted_filter tree _)
      (@pastUpperBound_mono ⟨fun _ => 0,0⟩ false) hlen maxCount
    rw [idsWithin_filter h.wf] at hscan
    simpa [searchGreater,hempty,pastUpperBound] using hscan

include hlower in
theorem Content.searchCloseRange_exact (hupper : upper.bytes ∈ keys) (leftEqual rightEqual : Bool) :
    RangeExact (searchCloseRange fuel tree lower upper leftEqual rightEqual maxCount) maxCount
      (idsOf tree ((keysOf tree).filter fun w =>
        aboveLower leftEqual lower.bytes w && belowUpper rightEqual upper.bytes w)) := by
  by_cases hempty : tree = .empty
  · subst hempty
    exact ⟨fun _ => rfl,fun hover => by simp [idsOf,keysOf,Node.entries] at hover⟩
  have hlen := (length_filter_le (fun e : Entry => aboveLower leftEqual lower.bytes e.1)
    tree.entries).trans (by simpa [keysOf] using hfuel)
  have hscan := rangeExact_scan (h.yields_lowerBound hkeys leftEqual hlower)
    (sorted_filter tree _) (@pastUpperBound_mono upper rightEqual) hlen maxCount
  rw [idsWithin_filter h.wf] at hscan
  simpa [searchCloseRange,pastUpperBound_eq (h.len_ne_zero hkeys hempty hupper)] using hscan

theorem Content.searchLess_exact (hupper : upper.bytes ∈ keys) :
    RangeExact (searchLess fuel tree upper equal maxCount) maxCount
      (idsOf tree ((keysOf tree).filter fun w => belowUpper equal upper.bytes w)) := by
  cases hempty : tree.isEmpty with
  | true =>
    cases tree <;> simp [Node.isEmpty] at hempty
    exact ⟨fun _ => rfl,fun hover => by simp [idsOf,keysOf,Node.entries] at hover⟩
  | false =>
    have hne : tree ≠ .empty := by
      rintro rfl
      simp [Node.isEmpty] at hempty
    have hyields : Yields (true, findMinimum tree initial) tree.entries := by
      have hspec := findMinimum_spec h.wf hne (show StackWf initial.nodes by
        simp [StackWf,initial])
      simpa [initial,pending,map_prepend_nil] using hspec
    have hlen : tree.entries.length ≤ fuel := by simpa [keysOf] using hfuel
    have hpositive : fuel ≠ 0 := by
      have hfirst := congrArg List.length (hyields.first rfl)
      simp only [remaining,length_cons] at hfirst
      omega
    have hscan := rangeExact_scan hyields (Node.entries_ascending tree)
      (@pastUpperBound_mono upper equal) hlen maxCount
    have hids := idsWithin_filter h.wf (pastUpperBound upper equal) (fun _ => true)
    rw [filter_true] at hids
    rw [hids] at hscan
    have hupper' := h.len_ne_zero hkeys hne hupper
    rw [searchLess_eq hupper' hempty equal maxCount hpositive]
    simpa [pastUpperBound_eq hupper'] using hscan

end

/-- Range scans are exact: on a tree that holds the stored pairs, with bounds of the key space,
each search visits the stored keys of its range in ascending byte order. -/
theorem range_scans_exact (hkeys : PrefixFree keys) (h : Content keys tree stored) :
    ∃ ks : List (List Byte), ks.Pairwise (· < ·) ∧
      (∀ w, w ∈ ks ↔ ∃ rowId, (w, rowId) ∈ stored) ∧
      (∀ w, (tree.rows w : Multiset RowId) = valuesAt stored w) ∧
      ∀ lower upper : ArtKey, lower.bytes ∈ keys → upper.bytes ∈ keys →
      ∀ (leftEqual rightEqual : Bool) (maxCount fuel : Nat), ks.length ≤ fuel →
        RangeExact (searchGreater fuel tree lower leftEqual maxCount) maxCount
          (idsOf tree (ks.filter fun w => aboveLower leftEqual lower.bytes w)) ∧
        RangeExact (searchLess fuel tree upper rightEqual maxCount) maxCount
          (idsOf tree (ks.filter fun w => belowUpper rightEqual upper.bytes w)) ∧
        RangeExact (searchCloseRange fuel tree lower upper leftEqual rightEqual maxCount) maxCount
          (idsOf tree (ks.filter fun w =>
            aboveLower leftEqual lower.bytes w && belowUpper rightEqual upper.bytes w)) := by
  refine ⟨keysOf tree,pairwise_map.mpr (Node.entries_ascending tree),h.mem_keysOf,
    h.rows_eq,?_⟩
  intro lower upper hlower hupper leftEqual rightEqual maxCount fuel hfuel
  exact ⟨h.searchGreater_exact hkeys hfuel leftEqual maxCount hlower,
    h.searchLess_exact hkeys hfuel rightEqual maxCount hupper,
    h.searchCloseRange_exact hkeys hfuel maxCount hlower hupper leftEqual rightEqual⟩

/-- Three keys of two bytes; the range from the second on has two row ids. -/
theorem range_scans_exact_three_keys :
    ∃ ks : List (List Byte), ks.Pairwise (· < ·) ∧
      (∀ w, w ∈ ks ↔ ∃ rowId, (w, rowId) ∈ storeBatch false 0
        [(.ofBytes [1, 2], 7), (.ofBytes [1, 3], 8), (.ofBytes [2, 0], 9)]) ∧
      RangeExact (searchGreater ks.length (artInsert false .empty
        [(.ofBytes [1, 2], 7), (.ofBytes [1, 3], 8), (.ofBytes [2, 0], 9)]).1
          (.ofBytes [1, 3]) true 5) 5
        (idsOf (artInsert false .empty
          [(.ofBytes [1, 2], 7), (.ofBytes [1, 3], 8), (.ofBytes [2, 0], 9)]).1
            (ks.filter fun w => aboveLower true (ofBytes [1, 3]).bytes w)) := by
  have hkeys : PrefixFree {[1,2], [1,3], [2,0]} := by
    intro a ha b hb hp
    rcases ha with rfl | rfl | rfl <;> rcases hb with rfl | rfl | rfl <;> revert hp <;> decide
  have hrows : KeysIn {[1,2], [1,3], [2,0]}
      [(.ofBytes [1,2], 7),(.ofBytes [1,3], 8),(.ofBytes [2,0], 9)] := by
    intro row hrow _
    simp only [mem_cons,not_mem_nil,or_false] at hrow
    rcases hrow with rfl | rfl | rfl <;> simp [bytes_ofBytes]
  have hempty : History false {[1,2], [1,3], [2,0]} .empty 0 := .empty
  obtain ⟨ks,hsorted,hmem,_,hsearch⟩ :=
    range_scans_exact hkeys ((hempty.insert _ hrows).content hkeys).1
  have hbound : (ofBytes [1,3]).bytes ∈ ({[1,2], [1,3], [2,0]} : Set (List Byte)) := by
    simp [bytes_ofBytes]
  exact ⟨ks,hsorted,hmem,(hsearch _ _ hbound hbound true true 5 _ le_rfl).1⟩

end Content

end PredTrans.Index

import PredTrans.Index.ArtErase
import PredTrans.Library.Multimap

/-!
The index is a multimap: after any history of inserted batches and erased pairs, the tree holds
exactly the pairs that an abstract multiset of pairs holds.
-/

namespace PredTrans.Index

open Library Library.Multimap List

/-- No key is a proper beginning of another one. -/
def PrefixFree (keys : Set (List Byte)) : Prop :=
  ∀ a ∈ keys, ∀ b ∈ keys, a <+: b → a = b

/-- The pairs of a chunk: rows with an empty key are not indexed. -/
def pairsOf (rows : List IndexRow) : Multiset (List Byte × RowId) :=
  (rows.filter fun row => decide (row.1.len ≠ 0)).map fun row => (row.1.bytes, row.2)

/-- Every indexed row has a key of the key space. -/
def KeysIn (keys : Set (List Byte)) (rows : List IndexRow) : Prop :=
  ∀ row ∈ rows, row.1.len ≠ 0 → row.1.bytes ∈ keys

/-- The tree holds the pairs. -/
structure Content (keys : Set (List Byte)) (tree : Node)
    (stored : Multiset (List Byte × RowId)) : Prop where
  wf : tree.Wf
  rows_eq : ∀ w, (tree.rows w : Multiset RowId) = valuesAt stored w
  keys_mem : ∀ p ∈ stored, p.1 ∈ keys
  keys_ne_nil : ∀ p ∈ stored, p.1 ≠ []

section Content

variable {keys : Set (List Byte)} {tree : Node} {stored : Multiset (List Byte × RowId)}

theorem pairsOf_skip (h : row.1.len = 0) (rest : List IndexRow) :
    pairsOf (row :: rest) = pairsOf rest := by
  simp [pairsOf,h]

theorem pairsOf_cons (h : row.1.len ≠ 0) (rest : List IndexRow) :
    pairsOf (row :: rest) = (row.1.bytes, row.2) ::ₘ pairsOf rest := by
  simp [pairsOf,h]

theorem content_empty (keys : Set (List Byte)) : Content keys .empty 0 :=
  ⟨trivial,fun _ => rfl,by simp,by simp⟩

theorem Content.rows_eq_nil (h : Content keys tree stored) :
    tree.rows w = [] ↔ valuesAt stored w = 0 := by
  rw [← h.rows_eq,Multiset.coe_eq_zero]

section

variable (h : Content keys tree stored) (hkeys : PrefixFree keys)
include h hkeys

theorem Content.apart (hw : w ∈ keys) : tree.rows.Apart w := by
  intro v hv hp
  have hne : valuesAt stored v ≠ 0 := fun hzero => hv (h.rows_eq_nil.mpr hzero)
  obtain ⟨r,hr⟩ := Multiset.exists_mem_of_ne_zero hne
  have hvk := h.keys_mem _ (mem_valuesAt.mp hr)
  rcases hp with hp | hp
  · exact hkeys v hvk w hw hp
  · exact (hkeys w hw v hvk hp).symm

theorem Content.insert (unique : Bool)
    (hlen : key.len ≠ 0) (hkey : key.bytes ∈ keys) (rowId : RowId) :
    ((tree.insert unique key rowId 0).1 = true ↔
      unique = false ∨ valuesAt stored key.bytes = 0) ∧
    ((tree.insert unique key rowId 0).1 = true →
      Content keys (tree.insert unique key rowId 0).2 ((key.bytes, rowId) ::ₘ stored)) ∧
    ((tree.insert unique key rowId 0).1 = false →
      Content keys (tree.insert unique key rowId 0).2 stored) := by
  have hins := Node.insert_spec unique rowId h.wf (Nat.zero_le key.len) (h.apart hkeys hkey)
  refine ⟨?_,?_,?_⟩
  · rw [hins.ok_iff]
    exact or_congr_right h.rows_eq_nil
  · intro hok
    refine ⟨hins.wf,?_,?_,?_⟩
    · intro w
      rw [hins.rows_ok hok,valuesAt_cons,Function.update_apply]
      by_cases hw : w = key.bytes
      · have hrows := h.rows_eq key.bytes
        rw [if_pos (show w = key.suffix 0 from hw),if_pos hw.symm,hw,← hrows,
          ← Multiset.coe_add,Multiset.add_comm]
        rfl
      · rw [if_neg (show w ≠ key.suffix 0 from hw),if_neg (Ne.symm hw)]
        exact h.rows_eq w
    · intro p hp
      rcases Multiset.mem_cons.mp hp with rfl | hp
      · exact hkey
      · exact h.keys_mem p hp
    · intro p hp
      rcases Multiset.mem_cons.mp hp with rfl | hp
      · apply ne_nil_of_length_pos
        rw [ArtKey.bytes,key.length_suffix]
        omega
      · exact h.keys_ne_nil p hp
  · intro hfailed
    exact ⟨hins.wf,fun w => by rw [hins.rows_failed hfailed,h.rows_eq],h.keys_mem,
      h.keys_ne_nil⟩

theorem Content.erase (hstored : (key.bytes, rowId) ∈ stored) :
    Content keys (tree.erase key rowId [] 0) (stored.erase (key.bytes, rowId)) := by
  have hkey := h.keys_mem _ hstored
  have hers := Node.erase_spec (show Node.ChainWf [] by simp [Node.ChainWf]) rowId h.wf
    (fun _ => rfl) (Nat.zero_le key.len) (h.apart hkeys hkey)
  refine ⟨hers.wf,?_,fun p hp => h.keys_mem p (Multiset.mem_of_mem_erase hp),
    fun p hp => h.keys_ne_nil p (Multiset.mem_of_mem_erase hp)⟩
  intro w
  rw [hers.rows_eq,valuesAt_erase hstored,flatten_nil,WordMap.under_nil,
    Function.update_apply]
  by_cases hw : w = key.bytes
  · have hrows := h.rows_eq key.bytes
    have hmem : rowId ∈ tree.rows key.bytes := by
      rw [← Multiset.mem_coe,hrows]
      exact mem_valuesAt.mpr hstored
    rw [if_pos (show w = key.suffix 0 from hw),if_pos hw.symm,hw,← hrows,Multiset.coe_erase]
    exact Multiset.coe_eq_coe.mpr (removeRow_perm hmem)
  · rw [if_neg (show w ≠ key.suffix 0 from hw),if_neg (Ne.symm hw)]
    exact h.rows_eq w

end

theorem Content.eraseRows (hkeys : PrefixFree keys)
    (h : Content keys tree (stored + pairsOf rows)) :
    Content keys (eraseRows tree rows) stored := by
  induction rows generalizing tree with
  | nil => simpa [pairsOf,Index.eraseRows] using h
  | cons row rest ih =>
    by_cases hlen : row.1.len = 0
    · rw [pairsOf_skip hlen] at h
      simpa [Index.eraseRows,hlen] using ih h
    · rw [pairsOf_cons hlen,Multiset.add_cons] at h
      have herase := h.erase hkeys (Multiset.mem_cons_self _ _)
      rw [Multiset.erase_cons_head] at herase
      simpa [Index.eraseRows,hlen] using ih herase

variable (hkeys : PrefixFree keys) (unique : Bool) (hrows : KeysIn keys rows)
  (h : Content keys tree stored) (hsingle : unique = true → Single stored)
include hkeys hrows h hsingle

/-- The loop over a chunk: it stops only at a row that would give its key a second row id. -/
theorem Content.insertRows :
    ((insertRows unique tree rows).2 = none →
      Content keys (insertRows unique tree rows).1 (stored + pairsOf rows) ∧
      (unique = true → Single (stored + pairsOf rows))) ∧
    ∀ i, (insertRows unique tree rows).2 = some i → unique = true ∧
      Content keys (insertRows unique tree rows).1 (stored + pairsOf (rows.take i)) ∧
      ¬ Single (stored + pairsOf rows) := by
  induction rows generalizing tree stored with
  | nil =>
    have hpairs : pairsOf [] = 0 := rfl
    simpa [Index.insertRows,hpairs] using ⟨h,hsingle⟩
  | cons row rest ih =>
    obtain ⟨hrow,hrest⟩ := forall_mem_cons.mp hrows
    obtain ⟨key,rowId⟩ := row
    by_cases hlen : key.len = 0
    · obtain ⟨ihnone,ihsome⟩ := ih hrest h hsingle
      simp only [Index.insertRows,hlen,if_true,@pairsOf_skip (key, rowId) hlen]
      refine ⟨fun hnone => ihnone (by simpa using hnone),?_⟩
      intro i hi
      obtain ⟨j,hj,rfl⟩ := Option.map_eq_some_iff.mp hi
      simpa [@pairsOf_skip (key, rowId) hlen] using ihsome j hj
    obtain ⟨hok,hcontent,hfailed⟩ := h.insert hkeys unique hlen (hrow hlen) rowId
    have hpairs : stored + pairsOf ((key, rowId) :: rest) =
        (key.bytes, rowId) ::ₘ stored + pairsOf rest := by
      rw [pairsOf_cons hlen,Multiset.add_cons,Multiset.cons_add]
    by_cases hinserted : (tree.insert unique key rowId 0).1 = true
    · have hsingle' : unique = true → Single ((key.bytes, rowId) ::ₘ stored) := by
        intro hunique
        apply (hsingle hunique).cons
        simpa [hunique] using hok.mp hinserted
      obtain ⟨ihnone,ihsome⟩ := ih hrest (hcontent hinserted) hsingle'
      simp only [Index.insertRows,hlen,hinserted,if_true,if_false,hpairs]
      refine ⟨fun hnone => ihnone (by simpa using hnone),?_⟩
      intro i hi
      obtain ⟨j,hj,rfl⟩ := Option.map_eq_some_iff.mp hi
      have htake : stored + pairsOf (((key, rowId) :: rest).take (j + 1)) =
          (key.bytes, rowId) ::ₘ stored + pairsOf (rest.take j) := by
        rw [take_succ_cons,pairsOf_cons hlen,Multiset.add_cons,Multiset.cons_add]
      rw [htake]
      exact ihsome j hj
    · have hfalse : (tree.insert unique key rowId 0).1 = false := by simpa using hinserted
      have hconflict : unique = true ∧ valuesAt stored key.bytes ≠ 0 := by
        have := mt hok.mpr hinserted
        simpa using this
      simp only [Index.insertRows,hlen,hfalse,if_false]
      refine ⟨by simp,?_⟩
      intro i hi
      obtain rfl : i = 0 := by simpa using hi.symm
      refine ⟨hconflict.1,?_,?_⟩
      · have hpairs : pairsOf [] = 0 := rfl
        simpa [hpairs] using hfailed hfalse
      · apply @not_single_of_add _ _ _ _ _ (key.bytes, rowId) hconflict.2
        rw [pairsOf_cons hlen]
        exact Multiset.mem_cons_self _ _

/-- A batch: it fails exactly when it would give some key of a unique index a second row id, and
then the tree holds what it held before. -/
theorem Content.artInsert :
    ((artInsert unique tree rows).2 ≠ none ↔
      unique = true ∧ ¬ Single (stored + pairsOf rows)) ∧
    ((artInsert unique tree rows).2 = none →
      Content keys (artInsert unique tree rows).1 (stored + pairsOf rows)) ∧
    ((artInsert unique tree rows).2 ≠ none →
      Content keys (artInsert unique tree rows).1 stored) := by
  obtain ⟨hnone,hsome⟩ := Content.insertRows hkeys unique hrows h hsingle
  unfold Index.artInsert
  cases hresult : Index.insertRows unique tree rows with
  | mk tree' failed =>
    rw [hresult] at hnone hsome
    cases failed with
    | none =>
      obtain ⟨hcontent,hsingle'⟩ := hnone rfl
      exact ⟨by simpa using hsingle',fun _ => hcontent,by simp⟩
    | some i =>
      obtain ⟨hunique,hcontent,hconflict⟩ := hsome i rfl
      exact ⟨by simpa using ⟨hunique,hconflict⟩,by simp,fun _ => hcontent.eraseRows hkeys⟩

end Content

open Classical in
/-- What a batch adds to the stored pairs: nothing if it would give some key of a unique index a
second row id. -/
noncomputable def storeBatch (unique : Bool) (stored : Multiset (List Byte × RowId))
    (rows : List IndexRow) : Multiset (List Byte × RowId) :=
  if unique = true ∧ ¬ Single (stored + pairsOf rows) then stored else stored + pairsOf rows

/-- The trees that batches and erasures of stored pairs make out of an empty index, with the
pairs that are stored then. -/
inductive History (unique : Bool) (keys : Set (List Byte)) :
    Node → Multiset (List Byte × RowId) → Prop
  | empty : History unique keys .empty 0
  | insert {tree stored} (rows : List IndexRow) (h : History unique keys tree stored)
      (hrows : KeysIn keys rows) :
      History unique keys (artInsert unique tree rows).1 (storeBatch unique stored rows)
  | erase {tree stored} (key : ArtKey) (rowId : RowId) (h : History unique keys tree stored)
      (hstored : (key.bytes, rowId) ∈ stored) :
      History unique keys (tree.erase key rowId [] 0) (stored.erase (key.bytes, rowId))

section History

variable {unique : Bool} {keys : Set (List Byte)} {tree : Node}
  {stored : Multiset (List Byte × RowId)}

theorem single_storeBatch (hsingle : unique = true → Single stored) (rows : List IndexRow) :
    unique = true → Single (storeBatch unique stored rows) := by
  intro hunique
  unfold storeBatch
  split
  · exact hsingle hunique
  case isFalse hno => simpa [hunique] using hno

theorem History.content (hkeys : PrefixFree keys) (h : History unique keys tree stored) :
    Content keys tree stored ∧ (unique = true → Single stored) := by
  induction h with
  | empty => exact ⟨content_empty keys,fun _ k => by simp⟩
  | insert rows h hrows ih =>
    obtain ⟨hcontent,hsingle⟩ := ih
    obtain ⟨hfail,hok,hfailed⟩ := hcontent.artInsert hkeys unique hrows hsingle
    refine ⟨?_,single_storeBatch hsingle rows⟩
    unfold storeBatch
    split
    case isTrue hconflict => exact hfailed (hfail.mpr hconflict)
    case isFalse hno =>
      apply hok
      by_contra hne
      exact hno (hfail.mp hne)
  | erase key rowId h hstored ih =>
    obtain ⟨hcontent,hsingle⟩ := ih
    refine ⟨hcontent.erase hkeys hstored,?_⟩
    intro hunique k
    rw [valuesAt_erase hstored]
    split
    · exact (Multiset.card_le_card (Multiset.erase_le _ _)).trans (hsingle hunique k)
    · exact hsingle hunique k

theorem Content.lookup (hkeys : PrefixFree keys) (h : Content keys tree stored)
    (hkey : key.bytes ∈ keys) :
    (tree.lookup key 0 = none ↔ ∀ rowId, (key.bytes, rowId) ∉ stored) ∧
    ∀ leaf, tree.lookup key 0 = some leaf → leaf.isLeaf = true ∧
      (leaf.rowIds : Multiset RowId) = valuesAt stored key.bytes := by
  obtain ⟨hfound,hnone⟩ := Node.lookup_spec h.wf (Nat.zero_le key.len) (h.apart hkeys hkey)
  constructor
  · rw [← valuesAt_eq_zero,← h.rows_eq_nil]
    refine ⟨hnone,?_⟩
    intro hrows
    cases hlookup : tree.lookup key 0 with
    | none => rfl
    | some leaf =>
      obtain ⟨_,hids,hne⟩ := hfound leaf hlookup
      exact absurd (hids.trans hrows) hne
  · intro leaf hleaf
    obtain ⟨hisLeaf,hids,_⟩ := hfound leaf hleaf
    exact ⟨hisLeaf,by rw [hids]; exact h.rows_eq key.bytes⟩

/-- The index is a multimap over a prefix-free key space. -/
theorem art_is_multimap (hkeys : PrefixFree keys) (h : History unique keys tree stored) :
    (∀ key : ArtKey, key.bytes ∈ keys →
      (tree.lookup key 0 = none ↔ ∀ rowId, (key.bytes, rowId) ∉ stored) ∧
      ∀ leaf, tree.lookup key 0 = some leaf → leaf.isLeaf = true ∧
        (leaf.rowIds : Multiset RowId) = valuesAt stored key.bytes) ∧
    ∀ rows, KeysIn keys rows →
      ((artInsert unique tree rows).2 ≠ none ↔
        unique = true ∧ ¬ Single (stored + pairsOf rows)) ∧
      ((artInsert unique tree rows).2 ≠ none →
        History unique keys (artInsert unique tree rows).1 stored) := by
  obtain ⟨hcontent,hsingle⟩ := h.content hkeys
  refine ⟨fun key hkey => hcontent.lookup hkeys hkey,?_⟩
  intro rows hrows
  obtain ⟨hfail,_,_⟩ := hcontent.artInsert hkeys unique hrows hsingle
  refine ⟨hfail,?_⟩
  intro hne
  have hnext := History.insert rows h hrows
  rwa [storeBatch,if_pos (hfail.mp hne)] at hnext

/-- Two keys that share a byte, one of them twice. -/
theorem art_is_multimap_shared_byte :
    ∃ leaf, (artInsert false .empty
        [(.ofBytes [1, 2], 7), (.ofBytes [1, 3], 8), (.ofBytes [1, 2], 9)]).1.lookup
          (.ofBytes [1, 2]) 0 = some leaf ∧ (leaf.rowIds : Multiset RowId) = {7, 9} := by
  have hkeys : PrefixFree {[1,2], [1,3]} := by
    intro a ha b hb hp
    rcases ha with rfl | rfl <;> rcases hb with rfl | rfl <;> revert hp <;> decide
  have hrows : KeysIn {[1,2], [1,3]}
      [(.ofBytes [1,2], 7),(.ofBytes [1,3], 8),(.ofBytes [1,2], 9)] := by
    intro row hrow _
    simp only [mem_cons,not_mem_nil,or_false] at hrow
    rcases hrow with rfl | rfl | rfl <;> simp [ArtKey.bytes_ofBytes]
  have hempty : History false {[1,2], [1,3]} .empty 0 := .empty
  obtain ⟨hnone,hsome⟩ := (art_is_multimap hkeys (hempty.insert _ hrows)).1 (.ofBytes [1,2])
    (by simp [ArtKey.bytes_ofBytes])
  have hfound : ((7 : RowId)) ∈ valuesAt (pairsOf [(.ofBytes [1,2], 7),(.ofBytes [1,3], 8),
      (.ofBytes [1,2], 9)]) (ArtKey.ofBytes [1,2]).bytes := by decide
  obtain ⟨leaf,hleaf⟩ := Option.ne_none_iff_exists'.mp fun h =>
    hnone.mp h 7 (mem_valuesAt.mp hfound)
  exact ⟨leaf,hleaf,(hsome leaf hleaf).2.trans (by decide)⟩

end History

end PredTrans.Index

import PredTrans.Index.Art
import PredTrans.Index.LayoutOperations
import PredTrans.Library.WordMap

/-!
What a tree stores: a map from key bytes to row ids, read off the tree without any search. The
small operations on prefixes and leaves are described in terms of this map.
-/

namespace PredTrans.Index

open List Library Function WordMap

namespace ArtKey

variable (key : ArtKey)

theorem suffix_of_lt (h : depth < key.len) :
    key.suffix depth = key.data depth :: key.suffix (depth + 1) := by
  have hlen : depth < ((List.range key.len).map key.data).length := by simpa using h
  simp [suffix,drop_eq_getElem_cons hlen]

theorem length_suffix (depth : Nat) : (key.suffix depth).length = key.len - depth := by
  simp [suffix]

theorem lt_of_suffix_ne_nil (h : key.suffix depth ≠ []) : depth < key.len := by
  have := length_pos_of_ne_nil h
  rw [length_suffix] at this
  omega

theorem suffix_eq_map (depth : Nat) :
    key.suffix depth = (List.range (key.len - depth)).map fun i => key.data (depth + i) := by
  apply ext_getElem
  · simp [length_suffix]
  · simp [suffix]

theorem bytes_ofBytes (bytes : List Byte) : (ofBytes bytes).bytes = bytes := by
  apply ext_getElem
  · simp [ArtKey.bytes,suffix,ofBytes]
  · intro i h1 h2
    simp [ArtKey.bytes,suffix,ofBytes,h2]

end ArtKey

namespace Node

variable {next : Node}

/-- The row ids at every key below a node. -/
def rows : Node → WordMap Byte RowId
  | empty => WordMap.empty
  | prefixed data next => under data next.rows
  | leafInlined rowId => single [] [rowId]
  | leaf segments => single [] segments.flatten
  | inner layout children => route fun byte =>
    match layout.slot children byte with
    | some i => (children i).rows
    | none => WordMap.empty

/-- A chain of leaf segments: all are full but the last, which is not empty, and a chain of one
segment holds at least two row ids. -/
def SegmentsWf (segments : List (List RowId)) : Prop :=
  ∃ full tail, segments.map List.length = List.replicate full leafSize ++ [tail] ∧
    0 < tail ∧ tail ≤ leafSize ∧ (full = 0 → 2 ≤ tail)

/-- The invariant of the tree below a node. -/
def Wf : Node → Prop
  | empty => True
  | prefixed data next => data ≠ [] ∧ data.length ≤ prefixSize ∧ next ≠ empty ∧ next.Wf
  | leafInlined _ => True
  | leaf segments => SegmentsWf segments
  | inner layout children => layout.Valid children ∧ layout.minCount ≤ layout.count ∧
    ∀ byte i, layout.slot children byte = some i → (children i).Wf

theorem SegmentsWf.exists_tail (h : SegmentsWf segments) :
    ∃ full tail, segments = full ++ [tail] ∧
      full.map List.length = List.replicate full.length leafSize ∧
      0 < tail.length ∧ tail.length ≤ leafSize ∧ (full = [] → 2 ≤ tail.length) := by
  obtain ⟨n,t,hlen,hpos,hle,htwo⟩ := h
  obtain ⟨full,last,rfl,hfull,hlast⟩ := map_eq_append_iff.mp hlen
  obtain ⟨tail,rfl,rfl⟩ := map_eq_singleton_iff.mp hlast
  have hn : full.length = n := by simpa using congrArg List.length hfull
  subst hn
  exact ⟨full,tail,rfl,hfull,hpos,hle,fun h => htwo (by simp [h])⟩

theorem SegmentsWf.length_pos (h : SegmentsWf segments) : 0 < segments.flatten.length := by
  obtain ⟨full,tail,rfl,_,hpos,_⟩ := h.exists_tail
  simp
  omega

@[simp] theorem hasMetadata_iff : IndexPointer.hasMetadata node = true ↔ node ≠ empty := by
  cases node <;> simp [IndexPointer.hasMetadata,isEmpty]

/-- What the children of an inner node store. -/
def childRows (layout : Layout) (children : Nat → Node) (byte : Byte) : WordMap Byte RowId :=
  (layout.getChild children byte).elim WordMap.empty rows

theorem rows_inner (layout : Layout) (children : Nat → Node) :
    (inner layout children).rows = route (childRows layout children) := by
  unfold rows
  congr 1
  funext byte
  unfold childRows Layout.getChild
  cases layout.slot children byte <;> rfl

theorem childRows_some (h : layout.slot children byte = some i) :
    childRows layout children byte = (children i).rows := by
  simp [childRows,Layout.getChild,h]

theorem childRows_none (h : layout.slot children byte = none) :
    childRows layout children byte = WordMap.empty := by
  simp [childRows,Layout.getChild,h]

theorem wf_inner :
    (inner layout children).Wf ↔ layout.Valid children ∧ layout.minCount ≤ layout.count ∧
      ∀ byte child, layout.getChild children byte = some child → child.Wf := by
  constructor
  · intro ⟨hv,hmin,hwf⟩
    refine ⟨hv,hmin,?_⟩
    intro byte child hchild
    obtain ⟨i,hi,rfl⟩ := Option.map_eq_some_iff.mp hchild
    exact hwf byte i hi
  · intro ⟨hv,hmin,hwf⟩
    refine ⟨hv,hmin,?_⟩
    intro byte i hi
    exact hwf byte (children i) (by simp [Layout.getChild,hi])

theorem child_ne_empty {layout : Layout} (hvalid : layout.Valid children)
    (hslot : layout.slot children byte = some i) : children i ≠ empty := by
  have hchild : layout.getChild children byte = some (children i) := by
    simp [Layout.getChild,hslot]
  exact hasMetadata_iff.mp (Layout.hasMetadata_of_getChild hvalid hchild)

theorem two_le_minCount (layout : Layout) : 2 ≤ layout.minCount := by
  cases layout <;> simp [Layout.minCount,node4Capacity,node48ShrinkThreshold,
    node256ShrinkThreshold]

theorem rows_holds (h : Layout.Holds node (update (layout.getChild children) byte child)) :
    (inner node.1 node.2).rows = route (update (childRows layout children) byte
      (child.elim WordMap.empty rows)) := by
  rw [rows_inner]
  congr 1
  funext b
  by_cases hb : b = byte
  · simp [childRows,h.getChild_eq,hb]
  · simp [childRows,h.getChild_eq,hb]

theorem wf_holds (hwf : (inner layout children).Wf)
    (h : Layout.Holds node (update (layout.getChild children) byte child))
    (hmin : node.1.minCount ≤ node.1.count) (hchild : ∀ c, child = some c → c.Wf) :
    (inner node.1 node.2).Wf := by
  refine wf_inner.mpr ⟨h.valid,hmin,?_⟩
  intro b c hc
  rw [h.getChild_eq,update_apply] at hc
  split at hc
  · exact hchild c hc
  · exact (wf_inner.mp hwf).2.2 b c hc

/-- Every tree that is not empty stores a key. -/
theorem exists_rows (hwf : node.Wf) (hne : node ≠ empty) : ∃ w, node.rows w ≠ [] := by
  induction node with
  | empty => exact absurd rfl hne
  | prefixed data next ih =>
    obtain ⟨w,hw⟩ := ih hwf.2.2.2 hwf.2.2.1
    exact ⟨data ++ w,by simpa [rows] using hw⟩
  | leafInlined rowId => exact ⟨[],by simp [rows,single]⟩
  | leaf segments =>
    exact ⟨[],by simpa [rows,single] using ne_nil_of_length_pos hwf.length_pos⟩
  | inner layout children ih =>
    obtain ⟨hv,hmin,hchildren⟩ := hwf
    have htwo := two_le_minCount layout
    obtain ⟨byte,child,hchild⟩ := Layout.exists_getChild hv (by omega)
    have hne := hasMetadata_iff.mp (Layout.hasMetadata_of_getChild hv hchild)
    obtain ⟨i,hi,rfl⟩ := Option.map_eq_some_iff.mp hchild
    obtain ⟨w,hw⟩ := ih i (hchildren byte i hi) hne
    exact ⟨byte :: w,by simpa [rows,route,hi] using hw⟩

theorem rows_prefixChain (fuel : Nat) (bytes : List Byte) (next : Node) (h : bytes.length ≤ fuel) :
    (prefixChain fuel bytes next).rows = under bytes next.rows := by
  induction fuel generalizing bytes with
  | zero =>
    obtain rfl := length_eq_zero_iff.mp (Nat.le_zero.mp h)
    simp [prefixChain]
  | succ fuel ih =>
    cases bytes with
    | nil => simp [prefixChain]
    | cons byte bytes =>
      have hlen : ((byte :: bytes).drop prefixSize).length ≤ fuel := by
        simp only [length_drop,length_cons,prefixSize] at h ⊢
        omega
      rw [prefixChain,rows,ih _ hlen,under_under,take_append_drop]

theorem wf_prefixChain (fuel : Nat) (bytes : List Byte) (hwf : next.Wf) (hne : next ≠ empty) :
    (prefixChain fuel bytes next).Wf ∧ prefixChain fuel bytes next ≠ empty := by
  induction fuel generalizing bytes with
  | zero => exact ⟨hwf,hne⟩
  | succ fuel ih =>
    cases bytes with
    | nil => exact ⟨hwf,hne⟩
    | cons byte bytes =>
      obtain ⟨ihwf,ihne⟩ := ih ((byte :: bytes).drop prefixSize)
      refine ⟨⟨by simp [prefixSize],by simp,ihne,ihwf⟩,by simp [prefixChain]⟩

theorem rows_appendBytes (data bytes : List Byte) (next : Node) :
    (appendBytes data bytes next).rows = under (data ++ bytes) next.rows := by
  induction bytes generalizing data with
  | nil => simp [appendBytes,rows]
  | cons byte bytes ih =>
    unfold appendBytes
    split
    · simp [rows,ih,under_under]
    · simp [ih]

theorem wf_appendBytes (hdata : data.length ≤ prefixSize) (hbytes : data ++ bytes ≠ [])
    (hwf : next.Wf) (hne : next ≠ empty) :
    (appendBytes data bytes next).Wf ∧ appendBytes data bytes next ≠ empty := by
  induction bytes generalizing data with
  | nil => exact ⟨⟨by simpa using hbytes,hdata,hne,hwf⟩,by simp [appendBytes]⟩
  | cons byte bytes ih =>
    unfold appendBytes
    split
    case isTrue hfull =>
      obtain ⟨ihwf,ihne⟩ := @ih [byte] (by simp [prefixSize]) (by simp)
      refine ⟨⟨?_,hdata,ihne,ihwf⟩,by simp⟩
      intro hnil
      simp [hnil,prefixSize] at hfull
    case isFalse hroom =>
      apply ih
      · simp
        omega
      · simp

theorem rows_chain (node : Node) :
    under (chainBytes node) (chainEnd node).rows = node.rows := by
  induction node with
  | prefixed data next ih => simp [chainBytes,chainEnd,rows,← ih,under_under]
  | empty | leafInlined | leaf | inner => simp [chainBytes,chainEnd]

theorem wf_chainEnd (hwf : node.Wf) (hne : node ≠ empty) :
    (chainEnd node).Wf ∧ chainEnd node ≠ empty := by
  induction node with
  | prefixed data next ih => exact ih hwf.2.2.2 hwf.2.2.1
  | empty | leafInlined | leaf | inner => exact ⟨hwf,hne⟩

/-- The prefix nodes of a chain are of a legal size. -/
def ChainWf (chain : List (List Byte)) : Prop :=
  ∀ data ∈ chain, data ≠ [] ∧ data.length ≤ prefixSize

theorem rows_wrap (chain : List (List Byte)) (node : Node) :
    (wrap chain node).rows = under chain.flatten node.rows := by
  induction chain with
  | nil => simp [wrap]
  | cons data chain ih =>
    have hcons : wrap (data :: chain) node = prefixed data (wrap chain node) := rfl
    simp [hcons,rows,ih,under_under]

theorem wf_wrap (hchain : ChainWf chain) (hwf : node.Wf) (hne : node ≠ empty) :
    (wrap chain node).Wf ∧ wrap chain node ≠ empty := by
  induction chain with
  | nil => exact ⟨hwf,hne⟩
  | cons data chain ih =>
    obtain ⟨hdata,hrest⟩ := forall_mem_cons.mp hchain
    obtain ⟨ihwf,ihne⟩ := ih hrest
    exact ⟨⟨hdata.1,hdata.2,ihne,ihwf⟩,by simp [wrap]⟩

theorem rows_concatenate (chain : List (List Byte)) (byte : Byte) (child : Node) :
    (concatenate chain byte child).rows =
      under chain.flatten (under [byte] child.rows) := by
  unfold concatenate
  cases hlast : chain.getLast? with
  | none =>
    obtain rfl := getLast?_eq_none_iff.mp hlast
    simp only [rows_appendBytes,← under_under,rows_chain,flatten_nil,
      under_nil]
  | some tail =>
    obtain ⟨front,rfl⟩ := getLast?_eq_some_iff.mp hlast
    have happ : tail ++ byte :: chainBytes child = tail ++ ([byte] ++ chainBytes child) := rfl
    simp only [rows_wrap,rows_appendBytes,happ,← under_under,rows_chain,
      dropLast_concat,flatten_append,flatten_singleton]

theorem wf_concatenate (byte : Byte) (hchain : ChainWf chain) (hwf : child.Wf)
    (hne : child ≠ empty) :
    (concatenate chain byte child).Wf ∧ concatenate chain byte child ≠ empty := by
  obtain ⟨hend,hendne⟩ := wf_chainEnd hwf hne
  unfold concatenate
  cases hlast : chain.getLast? with
  | none => exact wf_appendBytes (by simp [prefixSize]) (by simp) hend hendne
  | some tail =>
    obtain ⟨front,rfl⟩ := getLast?_eq_some_iff.mp hlast
    have htail := hchain tail (by simp)
    obtain ⟨hwf',hne'⟩ := @wf_appendBytes _ tail (byte :: chainBytes child) htail.2 (by simp)
      hend hendne
    apply wf_wrap _ hwf' hne'
    intro data hdata
    exact hchain data (by simpa using Or.inl hdata)

/-- Splitting keeps the bytes before the position in the prefix and puts those behind it over the
child. -/
theorem split_spec (hdata : data.length ≤ prefixSize) (hpos : position < data.length)
    (hwf : next.Wf) (hne : next ≠ empty) :
    (split data next position).1 = data.take position ∧
      (split data next position).2.rows = under (data.drop (position + 1)) next.rows ∧
      (split data next position).2.Wf ∧ (split data next position).2 ≠ empty := by
  unfold split
  split
  case isTrue hlast =>
    have hlen : data.length = position + 1 := by omega
    refine ⟨?_,?_,hwf,hne⟩
    · simp [dropLast_eq_take,hlen]
    · simp [drop_eq_nil_of_le (le_of_eq hlen)]
  case isFalse =>
    split
    case isTrue hrest =>
      obtain ⟨hend,hendne⟩ := wf_chainEnd hwf hne
      refine ⟨rfl,?_,wf_appendBytes (by simp) ?_ hend hendne⟩
      · simp [rows_appendBytes,← under_under,rows_chain]
      · intro hnil
        simp only [nil_append,append_eq_nil_iff,drop_eq_nil_iff] at hnil
        omega
    case isFalse hrest =>
      have hlen : data.length ≤ position + 1 := by omega
      exact ⟨rfl,by simp [drop_eq_nil_of_le hlen],hwf,hne⟩

end Node

end PredTrans.Index

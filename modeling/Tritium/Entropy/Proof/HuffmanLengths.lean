import Tritium.Entropy.Huffman
import Tritium.Entropy.Proof.Frequencies
import Tritium.Lib.PrefixCode
import Tritium.Lib.WriteAll

/-!
# Huffman code lengths

The heap holds a forest of full binary trees over the symbols that occur. A merge takes two trees
out and puts one in, so the last tree has every symbol at exactly one leaf, and the depths of its
leaves fill the code space. Which two trees a merge picks does not matter for that.
-/

namespace Tritium.Entropy

open List
open PrefixCode

variable {index : ℕ}

/-! ### Trees in the node table -/

/-- The node at `index` is the root of `tree`. -/
inductive Represents (nodes : List Node) : ℕ → CodeTree ℕ → Prop
  | leaf {index : ℕ} {node : Node} {symbol : ℕ} (hnode : nodes[index]? = some node)
      (hsymbol : node.symbol = some symbol) : Represents nodes index (.leaf symbol)
  | node {index left right : ℕ} {node : Node} {leftTree rightTree : CodeTree ℕ}
      (hnode : nodes[index]? = some node) (hsymbol : node.symbol = none)
      (hchildren : node.children = some (left, right)) (hleft : Represents nodes left leftTree)
      (hright : Represents nodes right rightTree) :
      Represents nodes index (.node leftTree rightTree)

theorem getElem?_append_of_some {α : Type} {items more : List α} {position : ℕ} {item : α}
    (hitem : items[position]? = some item) : (items ++ more)[position]? = some item := by
  obtain ⟨hposition, _⟩ := List.getElem?_eq_some_iff.mp hitem
  rwa [List.getElem?_append_left hposition]

theorem Represents.append {nodes : List Node} {tree : CodeTree ℕ}
    (hrep : Represents nodes index tree) (more : List Node) :
    Represents (nodes ++ more) index tree := by
  induction hrep with
  | leaf hnode hsymbol => exact .leaf (getElem?_append_of_some hnode) hsymbol
  | node hnode hsymbol hchildren _ _ ihleft ihright =>
    exact .node (getElem?_append_of_some hnode) hsymbol hchildren ihleft ihright

theorem Represents.lt_length {nodes : List Node} {tree : CodeTree ℕ}
    (hrep : Represents nodes index tree) : index < nodes.length := by
  cases hrep with
  | leaf hnode _ => exact (List.getElem?_eq_some_iff.mp hnode).1
  | node hnode _ _ _ _ => exact (List.getElem?_eq_some_iff.mp hnode).1

/-! ### The forest in the heap -/

/-- Every heap entry stands for a tree, the trees have the given symbols at their leaves, and the
frequencies of the entries have the given sum. -/
structure Forest (nodes : List Node) (heap : List HeapNode) (symbols : List ℕ) (total : ℕ)
    (tree : ℕ → CodeTree ℕ) : Prop where
  represented : ∀ entry ∈ heap, Represents nodes entry.index (tree entry.index)
  leaves : (heap.flatMap fun entry => (tree entry.index).leaves).Perm symbols
  frequencies : (heap.map HeapNode.frequency).sum = total

variable {nodes : List Node} {heap : List HeapNode} {symbols : List ℕ} {total symbol : ℕ}
  {tree : ℕ → CodeTree ℕ} {bytes : List UInt8}

theorem Forest.push (hforest : Forest nodes heap symbols total tree) (node : Node)
    {added : CodeTree ℕ} (hadded : Represents (nodes ++ [node]) nodes.length added)
    (frequency minSymbol : ℕ) :
    Forest (nodes ++ [node]) (heap ++ [⟨frequency, minSymbol, nodes.length⟩])
      (symbols ++ added.leaves) (total + frequency)
      (Function.update tree nodes.length added) := by
  have hold : ∀ entry ∈ heap, Function.update tree nodes.length added entry.index =
      tree entry.index := by
    intro entry hentry
    have hlt := (hforest.represented entry hentry).lt_length
    exact Function.update_of_ne (Nat.ne_of_lt hlt) _ _
  refine ⟨?_, ?_, ?_⟩
  · intro entry hentry
    obtain hmem | hmem := mem_append.mp hentry
    · rw [hold entry hmem]
      exact (hforest.represented entry hmem).append _
    · rw [mem_singleton.mp hmem, Function.update_self]
      exact hadded
  · rw [flatMap_append, flatMap_singleton, Function.update_self,
      flatMap_congr fun entry hentry => by rw [hold entry hentry]]
    exact hforest.leaves.append_right _
  · simp [hforest.frequencies]

theorem Forest.pop (hforest : Forest nodes heap symbols total tree) {top : HeapNode}
    {rest : List HeapNode} (hperm : heap.Perm (top :: rest)) :
    Represents nodes top.index (tree top.index) ∧
      ∃ others, symbols.Perm ((tree top.index).leaves ++ others) ∧
        ∃ remaining, total = top.frequency + remaining ∧
          Forest nodes rest others remaining tree := by
  have hsymbols := hforest.leaves.symm.trans (hperm.flatMap_right _)
  have hsum := (hperm.map HeapNode.frequency).sum_eq
  rw [hforest.frequencies] at hsum
  refine ⟨hforest.represented top (hperm.mem_iff.mpr mem_cons_self), _, hsymbols, _, hsum, ?_⟩
  refine ⟨fun entry hentry => ?_, Perm.refl _, rfl⟩
  exact hforest.represented entry (hperm.mem_iff.mpr (mem_cons_of_mem _ hentry))

theorem exists_heapPop (hheap : heap ≠ []) :
    ∃ top rest, heapPop heap = some (top, rest) ∧ heap.Perm (top :: rest) :=
  exists_pop _ hheap

theorem heapPop_singleton (top : HeapNode) : heapPop [top] = some (top, []) := by
  simp [heapPop, minBy]

def presentSymbols (entries : List (ℕ × ℕ)) : List ℕ :=
  (entries.filter fun entry => entry.1 ≠ 0).map Prod.snd

theorem presentSymbols_cons {frequency : ℕ} (symbol : ℕ) (entries : List (ℕ × ℕ))
    (hfrequency : frequency ≠ 0) :
    presentSymbols ((frequency, symbol) :: entries) = symbol :: presentSymbols entries := by
  rw [presentSymbols, filter_cons_of_pos (by simpa using hfrequency)]
  rfl

/-- The first loop plants one leaf for every symbol that occurs. -/
theorem foldl_pushLeaf (entries : List (ℕ × ℕ)) (hforest : Forest nodes heap symbols total tree)
    (hlength : nodes.length = heap.length) :
    ∃ planted grown tree',
      entries.foldl pushLeaf (nodes, heap) = (planted, grown) ∧
        Forest planted grown (symbols ++ presentSymbols entries)
          (total + (entries.map Prod.fst).sum) tree' ∧ planted.length = grown.length ∧
        grown.length = heap.length + (presentSymbols entries).length := by
  induction entries generalizing nodes heap symbols total tree with
  | nil =>
    refine ⟨nodes, heap, tree, rfl, ?_, hlength, rfl⟩
    rw [presentSymbols, filter_nil, map_nil, append_nil]
    exact hforest
  | cons entry entries ih =>
    obtain ⟨frequency, symbol⟩ := entry
    rw [foldl_cons, pushLeaf]
    by_cases hzero : frequency = 0
    · subst hzero
      rw [map_cons, sum_cons, zero_add]
      exact ih hforest hlength
    · have hpush := hforest.push ⟨frequency, symbol, some symbol, none⟩
        (.leaf getElem?_concat_length rfl) frequency symbol
      obtain ⟨planted, grown, tree', hfold, hgrown, hplanted, hcount⟩ := ih hpush (by
        rw [length_append, length_append, hlength, length_singleton,
          length_singleton])
      rw [append_assoc] at hgrown
      rw [if_pos hzero, presentSymbols_cons symbol entries hzero, map_cons, sum_cons, ← add_assoc]
      refine ⟨planted, grown, tree', hfold, hgrown, hplanted, ?_⟩
      rw [hcount, length_append, length_singleton, length_cons]
      omega

/-- The merge loop ends with one tree that has all the symbols. -/
theorem mergeNodes_eq (turns : ℕ) (hforest : Forest nodes heap symbols total tree)
    (hheap : heap ≠ []) (hturns : heap.length ≤ turns) (htotal : total < 2 ^ 64) :
    ∃ merged root rootTree, mergeNodes turns nodes heap = .ok (merged, [root]) ∧
      Represents merged root.index rootTree ∧ rootTree.leaves.Perm symbols ∧
        nodes.length ≤ merged.length := by
  induction turns generalizing nodes heap symbols total tree with
  | zero => exact absurd (length_eq_zero_iff.mp (Nat.le_zero.mp hturns)) hheap
  | succ turns ih =>
    by_cases hmore : 1 < heap.length
    · obtain ⟨left, afterLeft, hpopLeft, hpermLeft⟩ := exists_heapPop hheap
      have hafterLeft : afterLeft ≠ [] := by
        intro hnil
        have hlength := hpermLeft.length_eq
        rw [hnil, length_singleton] at hlength
        omega
      obtain ⟨right, rest, hpopRight, hpermRight⟩ := exists_heapPop hafterLeft
      obtain ⟨hleft, others, hothers, remaining, _, hforestLeft⟩ := hforest.pop hpermLeft
      obtain ⟨hright, kept, hkept, spared, _, hforestRight⟩ := hforestLeft.pop hpermRight
      have hnode : Represents (nodes ++ [⟨left.frequency + right.frequency,
          min left.minSymbol right.minSymbol, none, some (left.index, right.index)⟩])
          nodes.length (.node (tree left.index) (tree right.index)) :=
        .node getElem?_concat_length rfl rfl (hleft.append _) (hright.append _)
      have hmerged := hforestRight.push _ hnode (left.frequency + right.frequency)
        (min left.minSymbol right.minSymbol)
      have hlengthLeft := hpermLeft.length_eq
      have hlengthRight := hpermRight.length_eq
      rw [length_cons] at hlengthLeft hlengthRight
      obtain ⟨merged, root, rootTree, hmerge, hroot, hleaves, hgrows⟩ := ih hmerged (by simp) (by
        rw [length_append, length_singleton]
        omega) (by omega)
      refine ⟨merged, root, rootTree, ?_, hroot, ?_, ?_⟩
      · rw [mergeNodes, if_pos hmore, hpopLeft, expect_some, ok_bind]
        dsimp only
        rw [hpopRight, expect_some, ok_bind]
        dsimp only
        rw [checkedAdd_of_lt (by omega)]
        exact hmerge
      · refine hleaves.trans (Perm.trans ?_ (hothers.trans (hkept.append_left _)).symm)
        rw [← append_assoc (tree left.index).leaves]
        exact perm_append_comm
      · rw [length_append] at hgrows
        omega
    · have hone : heap.length = 1 := by
        have hpos := length_pos_iff.mpr hheap
        omega
      obtain ⟨root, rfl⟩ := length_eq_one_iff.mp hone
      refine ⟨nodes, root, tree root.index, ?_, ?_, ?_, le_rfl⟩
      · rw [mergeNodes, if_neg hmore]
      · exact hforest.represented root (mem_singleton_self root)
      · have hleaves := hforest.leaves
        rwa [flatMap_singleton] at hleaves

def lengthEntries (depths : List (ℕ × ℕ)) : List (ℕ × UInt8) :=
  depths.map fun entry => (entry.1, UInt8.ofNat (max entry.2 1))

theorem assignLengths_eq {tree : CodeTree ℕ} (hrep : Represents nodes index tree) (turns depth : ℕ)
    (lengths : List UInt8) (hturns : tree.height < turns) (hdepth : depth + tree.height < 2 ^ 8)
    (hleaves : ∀ symbol ∈ tree.leaves, symbol < lengths.length) :
    assignLengths nodes turns index depth lengths =
      .ok (writeAll lengths (lengthEntries (tree.depths depth))) := by
  induction hrep generalizing turns depth lengths with
  | leaf hnode hsymbol =>
    obtain ⟨turns, rfl⟩ := Nat.exists_eq_succ_of_ne_zero (Nat.ne_of_gt hturns)
    rw [CodeTree.height] at hdepth
    rw [assignLengths, hnode, okOr_bind, hsymbol]
    dsimp only
    rw [tryInto_of_lt (by omega), okOr_bind, setIndex_of_lt (hleaves _ (mem_singleton_self _))]
    rfl
  | @node index left right node leftTree rightTree hnode hsymbol hchildren _ _ ihleft ihright =>
    obtain ⟨turns, rfl⟩ := Nat.exists_eq_succ_of_ne_zero (Nat.ne_of_gt (Nat.zero_lt_of_lt hturns))
    rw [CodeTree.height] at hturns hdepth
    obtain ⟨hleftLeaves, hrightLeaves⟩ := forall_mem_append.mp hleaves
    rw [assignLengths, hnode, okOr_bind, hsymbol, hchildren]
    dsimp only
    rw [ihleft turns (depth + 1) lengths (by omega) (by omega) hleftLeaves, ok_bind,
      ihright turns (depth + 1) _ (by omega) (by omega) (by
        intro symbol hmem
        rw [writeAll_length]
        exact hrightLeaves symbol hmem), CodeTree.depths]
    rw [lengthEntries, lengthEntries, lengthEntries, map_append, writeAll_append]

theorem mem_codedSymbols_iff {lengths : List UInt8} {entry : ℕ × ℕ} :
    entry ∈ codedSymbols lengths ↔
      ∃ length, lengths[entry.2]? = some length ∧ length ≠ 0 ∧ length.toNat = entry.1 := by
  rw [codedSymbols, mem_filterMap]
  constructor
  · rintro ⟨⟨length, symbol⟩, hmem, hentry⟩
    obtain ⟨hnonzero, hentry⟩ := Option.ite_none_right_eq_some.mp hentry
    rw [Option.some.injEq] at hentry
    rw [← hentry]
    exact ⟨length, mk_mem_zipIdx_iff_getElem?.mp hmem, hnonzero, rfl⟩
  · rintro ⟨length, hlength, hnonzero, hentry⟩
    refine ⟨(length, entry.2), mk_mem_zipIdx_iff_getElem?.mpr hlength, ?_⟩
    rw [if_pos hnonzero, hentry]

theorem nodup_codedSymbols (lengths : List UInt8) :
    ((codedSymbols lengths).map Prod.snd).Nodup := by
  have hnodup : (lengths.zipIdx.map Prod.snd).Nodup := by
    rw [zipIdx_map_snd]
    exact nodup_range'
  rw [Nodup, pairwise_map] at hnodup
  rw [Nodup, pairwise_map, codedSymbols, pairwise_filterMap]
  refine hnodup.imp fun hne first hfirst second hsecond => ?_
  obtain ⟨_, ⟨⟩⟩ := Option.ite_none_right_eq_some.mp hfirst
  obtain ⟨_, ⟨⟩⟩ := Option.ite_none_right_eq_some.mp hsecond
  exact hne

theorem codedSymbols_writeAll_perm {depths : List (ℕ × ℕ)} (hnodup : (depths.map Prod.fst).Nodup)
    (hbounds : ∀ entry ∈ depths, entry.1 < 256 ∧ entry.2 < 2 ^ 8) :
    (codedSymbols (writeAll (replicate 256 0) (lengthEntries depths))).Perm
      (depths.map fun entry => (max entry.2 1, entry.1)) := by
  have hkeys : ((lengthEntries depths).map Prod.fst).Nodup := by
    rw [lengthEntries, map_map]
    exact hnodup
  have hread : ∀ source ∈ depths, (writeAll (replicate 256 0) (lengthEntries depths))[source.1]? =
      some (UInt8.ofNat (max source.2 1)) ∧
      (UInt8.ofNat (max source.2 1)).toNat = max source.2 1 := by
    intro source hsource
    obtain ⟨hlt, _⟩ := hbounds source hsource
    refine ⟨writeAll_getElem?_of_mem _ hkeys (mem_map_of_mem hsource) ?_, ?_⟩
    · rwa [length_replicate]
    · rw [UInt8.toNat_ofNat', Nat.mod_eq_of_lt (by omega)]
  rw [perm_ext_iff_of_nodup (Nodup.of_map _ (nodup_codedSymbols _))]
  · intro entry
    rw [mem_codedSymbols_iff, mem_map]
    constructor
    · rintro ⟨length, hlength, hnonzero, hentry⟩
      by_cases hmem : entry.2 ∈ (lengthEntries depths).map Prod.fst
      · obtain ⟨_, hwritten, hkey⟩ := mem_map.mp hmem
        obtain ⟨source, hsource, rfl⟩ := mem_map.mp hwritten
        obtain ⟨hsource', htoNat⟩ := hread source hsource
        obtain rfl := Option.some.inj (hlength.symm.trans (hkey ▸ hsource'))
        exact ⟨source, hsource, Prod.ext (htoNat.symm.trans hentry) hkey⟩
      · rw [writeAll_getElem?_of_notMem hmem] at hlength
        exact absurd (eq_of_mem_replicate (mem_of_getElem? hlength)) hnonzero
    · rintro ⟨source, hsource, rfl⟩
      obtain ⟨hsource', htoNat⟩ := hread source hsource
      refine ⟨_, hsource', fun hzero => ?_, htoNat⟩
      rw [hzero] at htoNat
      change 0 = max source.2 1 at htoNat
      omega
  · apply Nodup.of_map Prod.snd
    rw [map_map]
    exact hnodup

def maxCodeBits : ℕ := 255

section TreeLengths

variable {tree : CodeTree ℕ}

def treeLengths (tree : CodeTree ℕ) : List UInt8 :=
  writeAll (replicate 256 0) (lengthEntries (tree.depths 0))

/-- The tree has the symbols below 256 at most once each. -/
structure ByteTree (tree : CodeTree ℕ) : Prop where
  nodup : tree.leaves.Nodup
  bounded : ∀ symbol ∈ tree.leaves, symbol < 256

section

variable (htree : ByteTree tree)

include htree

theorem ByteTree.leaves_length_le : tree.leaves.length ≤ 256 := by
  have hsubset : tree.leaves ⊆ range 256 :=
    fun symbol hsymbol => mem_range.mpr (htree.bounded symbol hsymbol)
  have hle := (htree.nodup.subperm hsubset).length_le
  rwa [length_range] at hle

theorem ByteTree.height_le : tree.height ≤ maxCodeBits := by
  have hheight := tree.height_lt_leaves
  have hleaves := htree.leaves_length_le
  have hmax : maxCodeBits = 255 := rfl
  omega

theorem ByteTree.codedSymbols_perm : (codedSymbols (treeLengths tree)).Perm
      ((tree.depths 0).map fun entry => (max entry.2 1, entry.1)) := by
  have hheight := htree.height_le
  have hmax : maxCodeBits = 255 := rfl
  apply codedSymbols_writeAll_perm
  · rw [CodeTree.map_fst_depths]
    exact htree.nodup
  · intro entry hentry
    have hbound := CodeTree.depths_bounds hentry
    exact ⟨htree.bounded _ (CodeTree.mem_leaves_of_mem_depths hentry), by omega⟩

theorem ByteTree.codedSymbols_length :
    (codedSymbols (treeLengths tree)).length = tree.leaves.length := by
  simp [htree.codedSymbols_perm.length_eq, ← tree.map_fst_depths 0]

/-- The lengths of a tree with two leaves or more fill the code space. -/
theorem ByteTree.sum_weight_eq (hleaves : 1 < tree.leaves.length) :
    ((codedSymbols (treeLengths tree)).map fun entry => weight maxCodeBits entry.1).sum =
      2 ^ maxCodeBits := by
  have hheight := htree.height_le
  rw [(htree.codedSymbols_perm.map _).sum_eq, map_map]
  have hsum := CodeTree.sum_weight_depths (by rwa [zero_add] : 0 + tree.height ≤ maxCodeBits)
  rw [weight, Nat.sub_zero] at hsum
  rw [← hsum]
  congr 1
  apply map_congr_left
  intro entry hentry
  rw [Function.comp_apply, max_eq_left (CodeTree.depths_pos hleaves hentry)]

end

theorem ByteTree.codedSymbols_leaf (htree : ByteTree (.leaf symbol)) :
    codedSymbols (treeLengths (.leaf symbol)) = [(1, symbol)] :=
  perm_singleton.mp htree.codedSymbols_perm

theorem ByteTree.sum_weight_le (htree : ByteTree tree) :
    ((codedSymbols (treeLengths tree)).map fun entry => weight maxCodeBits entry.1).sum ≤
      2 ^ maxCodeBits := by
  cases tree with
  | leaf symbol =>
    rw [htree.codedSymbols_leaf, map_singleton, sum_singleton]
    exact Nat.pow_le_pow_right (by decide) (Nat.sub_le _ _)
  | node left right =>
    have hleft := left.leaves_length_pos
    have hright := right.leaves_length_pos
    apply (htree.sum_weight_eq _).le
    rw [CodeTree.leaves, length_append]
    omega

theorem treeLengths_length (tree : CodeTree ℕ) : (treeLengths tree).length = 256 := by
  rw [treeLengths, writeAll_length, length_replicate]

theorem ByteTree.getD_ne_zero_iff (htree : ByteTree tree) :
    (treeLengths tree).getD symbol 0 ≠ 0 ↔ symbol ∈ tree.leaves := by
  have hcoded : (∃ length, (length, symbol) ∈ codedSymbols (treeLengths tree)) ↔
      symbol ∈ tree.leaves := by
    rw [← tree.map_fst_depths 0]
    simp only [htree.codedSymbols_perm.mem_iff, mem_map, Prod.mk.injEq]
    constructor
    · rintro ⟨length, entry, hentry, _, heq⟩
      exact ⟨entry, hentry, heq⟩
    · rintro ⟨entry, hentry, heq⟩
      exact ⟨_, entry, hentry, rfl, heq⟩
  rw [← hcoded, getD_eq_getElem?_getD]
  simp only [mem_codedSymbols_iff]
  cases hget : (treeLengths tree)[symbol]? with
  | none => simp
  | some length => simp

end TreeLengths

def occurring (bytes : List UInt8) : List ℕ :=
  (range 256).filter fun symbol => occurrences bytes symbol ≠ 0

theorem presentSymbols_counts (bytes : List UInt8) :
    presentSymbols ((range 256).map (occurrences bytes)).zipIdx = occurring bytes := by
  rw [presentSymbols, zipIdx_map_range, filter_map, map_map]
  exact map_id _

theorem mem_occurring_iff :
    symbol ∈ occurring bytes ↔ symbol < 256 ∧ 0 < occurrences bytes symbol := by
  simp [occurring]

theorem nodup_occurring (bytes : List UInt8) : (occurring bytes).Nodup :=
  nodup_range.filter _

theorem occurring_length_le (bytes : List UInt8) : (occurring bytes).length ≤ 256 := by
  have hle := length_filter_le (fun symbol => decide (occurrences bytes symbol ≠ 0))
    (range 256)
  rwa [length_range] at hle

theorem occurring_ne_nil (hbytes : bytes ≠ []) : occurring bytes ≠ [] := by
  obtain ⟨byte, hbyte⟩ := exists_mem_of_ne_nil bytes hbytes
  exact ne_nil_of_mem
    (mem_occurring_iff.mpr ⟨byte.toNat_lt, occurrences_pos_iff.mpr hbyte⟩)

theorem eq_leaf_of_leaves_length {tree : CodeTree ℕ} (hleaves : tree.leaves.length = 1) :
    ∃ symbol, tree = .leaf symbol := by
  cases tree with
  | leaf symbol => exact ⟨symbol, rfl⟩
  | node left right =>
    have hleft := left.leaves_length_pos
    have hright := right.leaves_length_pos
    rw [CodeTree.leaves, length_append] at hleaves
    omega

/-- The code lengths of a nonempty chunk are the depths of a full binary tree whose leaves are the
symbols that occur. -/
theorem huffmanLengths_eq (hbytes : bytes ≠ []) (hlimit : bytes.length < 2 ^ 64) :
    ∃ tree : CodeTree ℕ, huffmanLengths bytes = .ok (treeLengths tree) ∧
      tree.leaves.Perm (occurring bytes) := by
  have hincrement : ∀ count < bytes.length,
      (Outcome.add 64 count 1 : Outcome EntropyTransportError ℕ) = .ok (count + 1) := by
    intro count hcount
    exact add_of_lt (by omega)
  have hcounts := countBytes_eq hincrement
  have hempty : Forest [] [] [] 0 (fun _ => .leaf 0) := ⟨by simp, Perm.refl _, rfl⟩
  obtain ⟨nodes, heap, trees, hplant, hforest, _, hcount⟩ :=
    foldl_pushLeaf ((range 256).map (occurrences bytes)).zipIdx hempty rfl
  rw [presentSymbols_counts, nil_append, zipIdx_map_fst, sum_occurrences, zero_add] at hforest
  rw [presentSymbols_counts, length_nil, zero_add] at hcount
  have hheap : heap ≠ [] := by
    intro hnil
    rw [hnil, length_nil, eq_comm, length_eq_zero_iff] at hcount
    exact occurring_ne_nil hbytes hcount
  have hsmall := occurring_length_le bytes
  have hlt : ∀ tree : CodeTree ℕ, tree.leaves.Perm (occurring bytes) →
      ∀ symbol ∈ tree.leaves, symbol < (replicate 256 (0 : UInt8)).length := by
    intro tree hleaves symbol hsymbol
    rw [length_replicate]
    exact (mem_occurring_iff.mp (hleaves.mem_iff.mp hsymbol)).1
  rw [huffmanLengths, hcounts, ok_bind, hplant]
  dsimp only
  rw [if_neg hheap]
  by_cases hone : heap.length = 1
  · obtain ⟨top, rfl⟩ := length_eq_one_iff.mp hone
    have hleaves := hforest.leaves
    rw [flatMap_singleton] at hleaves
    obtain ⟨symbol, hsymbol⟩ := eq_leaf_of_leaves_length (by
      rw [hleaves.length_eq, ← hcount, length_singleton] :
        (trees top.index).leaves.length = 1)
    have hrep := hforest.represented top (mem_singleton_self top)
    refine ⟨trees top.index, ?_, hleaves⟩
    have hbound := hlt _ hleaves
    rw [hsymbol] at hrep hbound ⊢
    cases hrep with
    | leaf hnode hnodeSymbol =>
      rw [heapPop_singleton, expect_some, ok_bind]
      rw [Outcome.index, hnode, expect_some, ok_bind, hnodeSymbol, expect_some, ok_bind,
        setIndex_of_lt (hbound symbol (mem_singleton_self symbol))]
      rfl
  · obtain ⟨merged, root, tree, hmerge, hroot, hleaves, _⟩ :=
      mergeNodes_eq heap.length hforest hheap le_rfl hlimit
    have hheight := tree.height_lt_leaves
    rw [hleaves.length_eq] at hheight
    refine ⟨tree, ?_, hleaves⟩
    rw [if_neg hone, hmerge, ok_bind]
    dsimp only
    exact assignLengths_eq hroot _ _ _ (by omega) (by omega) (hlt tree hleaves)

end Tritium.Entropy

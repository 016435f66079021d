import Tritium.Lib.Collect
import Tritium.Salt.Proof.JointTable
import Mathlib.Algebra.BigOperators.Ring.List

/-!
# Code lengths of a joint code

The heap holds the roots of a forest over the live symbols, and the links up from a node lead to its
root in as many steps as the node is deep. When the tree that is left is too deep for the code, the
limiter starts over from lengths that are all within the limit and lengthens words until they fit;
at the latest they do when all words have the full length.
-/

namespace Tritium.Salt

open List
open PrefixCode

variable {freq lengths : List ℕ} {symbol : ℕ}

theorem mem_liveSymbols_iff : symbol ∈ liveSymbols freq ↔ 0 < freq.getD symbol 0 := by
  rw [liveSymbols, mem_filter, decide_eq_true_eq, mem_range, and_iff_right_iff_imp]
  intro hpos
  by_contra houtside
  rw [getD_eq_default _ _ (not_lt.mp houtside)] at hpos
  omega

theorem lt_of_mem_liveSymbols (hsymbol : symbol ∈ liveSymbols freq) :
    symbol < freq.length :=
  mem_range.mp (mem_of_mem_filter hsymbol)

theorem nodup_liveSymbols (freq : List ℕ) : (liveSymbols freq).Nodup :=
  nodup_range.filter _

theorem liveSymbols_length_le (freq : List ℕ) : (liveSymbols freq).length ≤ freq.length := by
  have hle := length_filter_le (fun symbol => 0 < freq.getD symbol 0) (range freq.length)
  rwa [length_range] at hle

theorem map_getD_range (items : List ℕ) :
    (range items.length).map (fun position => items.getD position 0) = items := by
  apply ext_getElem
  · rw [length_map, length_range]
  · intro position hposition hinside
    rw [getElem_map, getElem_range, getD_eq_getElem _ _ hinside]

theorem filter_pos_eq (items : List ℕ) :
    items.filter (0 < ·) = (liveSymbols items).map fun symbol => items.getD symbol 0 := by
  conv_lhs => rw [← map_getD_range items, filter_map]
  rfl

theorem kraftUnits_eq_sum (width : ℕ) (lengths : List ℕ) :
    kraftUnits width lengths =
      ((liveSymbols lengths).map fun symbol => weight width (lengths.getD symbol 0)).sum := by
  rw [kraftUnits, filter_pos_eq, map_map]
  rfl

theorem liveSymbols_congr {first second : List ℕ} (hlength : first.length = second.length)
    (hlive : ∀ symbol, 0 < first.getD symbol 0 ↔ 0 < second.getD symbol 0) :
    liveSymbols first = liveSymbols second := by
  rw [liveSymbols, hlength]
  apply filter_congr
  intro symbol _
  rw [decide_eq_decide]
  exact hlive symbol

/-! ### Links up to the roots -/

/-- The node is the root of the tree, and the links of the nodes below lead up to it. -/
inductive Hangs (parent : List (Option ℕ)) : ℕ → CodeTree ℕ → Prop
  | leaf {symbol : ℕ} (hsymbol : symbol < parent.length) : Hangs parent symbol (.leaf symbol)
  | node {root left right : ℕ} {leftTree rightTree : CodeTree ℕ} (hroot : root < parent.length)
      (hleft : parent[left]? = some (some root)) (hright : parent[right]? = some (some root))
      (hleftTree : Hangs parent left leftTree) (hrightTree : Hangs parent right rightTree) :
      Hangs parent root (.node leftTree rightTree)

variable {parent parent' : List (Option ℕ)} {root : ℕ}

theorem Hangs.lt_length {tree : CodeTree ℕ} (hhangs : Hangs parent root tree) :
    root < parent.length := by
  cases hhangs with
  | leaf hsymbol => exact hsymbol
  | node hroot => exact hroot

theorem Hangs.mono {tree : CodeTree ℕ} (hhangs : Hangs parent root tree)
    (hlength : parent.length ≤ parent'.length)
    (hlinks : ∀ node above : ℕ, parent[node]? = some (some above) →
      parent'[node]? = some (some above)) : Hangs parent' root tree := by
  induction hhangs with
  | leaf hsymbol => exact .leaf (lt_of_lt_of_le hsymbol hlength)
  | node hroot hleft hright _ _ ihleft ihright =>
    exact .node (lt_of_lt_of_le hroot hlength) (hlinks _ _ hleft) (hlinks _ _ hright) ihleft
      ihright

/-- Climbing from a leaf takes its depth in steps. -/
theorem Hangs.depthOf_eq {tree : CodeTree ℕ} (hhangs : Hangs parent root tree)
    {base steps symbol : ℕ} (hleaf : (symbol, base + steps) ∈ tree.depths base) (turns depth : ℕ) :
    depthOf parent (turns + steps) symbol depth = depthOf parent turns root (depth + steps) := by
  induction hhangs generalizing base steps turns with
  | leaf hsymbol =>
    obtain ⟨rfl, _⟩ := Prod.mk.inj (mem_singleton.mp hleaf)
    have hzero : steps = 0 := by omega
    rw [hzero, add_zero, add_zero]
  | @node root left right leftTree rightTree _ hleft hright _ _ ihleft ihright =>
    have hone : 1 ≤ steps := by
      obtain hmem | hmem := mem_append.mp hleaf
      · have hbounds := (CodeTree.depths_bounds hmem).1
        omega
      · have hbounds := (CodeTree.depths_bounds hmem).1
        omega
    obtain ⟨steps, rfl⟩ := Nat.exists_eq_add_of_le' hone
    have hclimb : ∀ child, parent[child]? = some (some root) →
        depthOf parent (turns + 1) child (depth + steps) =
          depthOf parent turns root (depth + (steps + 1)) := by
      intro child hchild
      rw [depthOf, index_eq_ok_iff.mpr hchild, ok_bind, add_assoc]
    rw [← add_assoc, add_right_comm base steps 1] at hleaf
    rw [add_comm steps 1, ← add_assoc, add_comm 1 steps]
    obtain hmem | hmem := mem_append.mp hleaf
    · rw [ihleft hmem (turns + 1), hclimb left hleft]
    · rw [ihright hmem (turns + 1), hclimb right hright]

/-! ### The forest in the heap -/

/-- The heap holds the roots of trees over the given symbols, with weights of the given sum. -/
structure Forest (parent : List (Option ℕ)) (heap : List (ℕ × ℕ)) (symbols : List ℕ) (total : ℕ)
    (tree : ℕ → CodeTree ℕ) : Prop where
  nodup : (heap.map Prod.snd).Nodup
  root : ∀ entry ∈ heap, parent[entry.2]? = some none
  hangs : ∀ entry ∈ heap, Hangs parent entry.2 (tree entry.2)
  leaves : (heap.flatMap fun entry => (tree entry.2).leaves).Perm symbols
  weights : (heap.map Prod.fst).sum = total

variable {heap heap' : List (ℕ × ℕ)} {symbols : List ℕ} {total : ℕ} {tree : ℕ → CodeTree ℕ}

theorem Forest.of_perm (hforest : Forest parent heap symbols total tree)
    (hperm : heap.Perm heap') : Forest parent heap' symbols total tree := by
  refine ⟨(hperm.map Prod.snd).nodup_iff.mp hforest.nodup, ?_, ?_, ?_, ?_⟩
  · exact fun entry hentry => hforest.root entry (hperm.mem_iff.mpr hentry)
  · exact fun entry hentry => hforest.hangs entry (hperm.mem_iff.mpr hentry)
  · exact (hperm.flatMap_right fun entry => (tree entry.2).leaves).symm.trans hforest.leaves
  · exact (hperm.map Prod.fst).sum_eq.symm.trans hforest.weights

theorem exists_heapPop (hheap : heap ≠ []) :
    ∃ top rest, heapPop heap = some (top, rest) ∧ heap.Perm (top :: rest) :=
  exists_pop comparePairs hheap

/-- The links after two roots got a common parent. -/
def joinRoots (parent : List (Option ℕ)) (first second : ℕ) : List (Option ℕ) :=
  ((parent ++ [none]).set first (some parent.length)).set second (some parent.length)

section Join

variable {first second : ℕ} (hfirst : parent[first]? = some none)
  (hsecond : parent[second]? = some none)

theorem joinRoots_length (parent : List (Option ℕ)) (first second : ℕ) :
    (joinRoots parent first second).length = parent.length + 1 := by
  simp [joinRoots]

theorem joinRoots_getElem?_of_ne {node : ℕ} (hne : node ≠ first) (hne' : node ≠ second) :
    (joinRoots parent first second)[node]? = (parent ++ [none])[node]? := by
  rw [joinRoots, getElem?_set_ne hne'.symm, getElem?_set_ne hne.symm]

include hfirst hsecond

theorem joinRoots_getElem? {node : ℕ} (hnode : node = first ∨ node = second) :
    (joinRoots parent first second)[node]? = some (some parent.length) := by
  have hfirstLt := (List.getElem?_eq_some_iff.mp hfirst).1
  have hsecondLt := (List.getElem?_eq_some_iff.mp hsecond).1
  rw [joinRoots, List.getElem?_set, List.getElem?_set, List.length_set, List.length_append]
  by_cases hlast : second = node
  · rw [if_pos hlast, if_pos (by omega)]
  · obtain rfl | rfl := hnode
    · rw [if_neg hlast, if_pos rfl, if_pos (by omega)]
    · omega

theorem joinRoots_links (node above : ℕ) (hlink : parent[node]? = some (some above)) :
    (joinRoots parent first second)[node]? = some (some above) := by
  have hne : node ≠ first := by
    rintro rfl
    rw [hfirst] at hlink
    cases hlink
  have hne' : node ≠ second := by
    rintro rfl
    rw [hsecond] at hlink
    cases hlink
  rw [joinRoots_getElem?_of_ne hne hne',
    List.getElem?_append_left (List.getElem?_eq_some_iff.mp hlink).1, hlink]

theorem joinRoots_hangs {tree tree' : CodeTree ℕ} (htree : Hangs parent first tree)
    (htree' : Hangs parent second tree') :
    Hangs (joinRoots parent first second) parent.length (.node tree tree') := by
  have hlength : parent.length ≤ (joinRoots parent first second).length := by
    rw [joinRoots_length]
    exact Nat.le_succ _
  refine .node ?_ (joinRoots_getElem? hfirst hsecond (Or.inl rfl))
    (joinRoots_getElem? hfirst hsecond (Or.inr rfl))
    (htree.mono hlength (joinRoots_links hfirst hsecond))
    (htree'.mono hlength (joinRoots_links hfirst hsecond))
  rw [joinRoots_length]
  omega

end Join

theorem Forest.join {first second : ℕ × ℕ}
    (hforest : Forest parent (first :: second :: heap) symbols total tree) :
    Forest (joinRoots parent first.2 second.2)
      (heap ++ [(first.1 + second.1, parent.length)]) symbols total
      (Function.update tree parent.length (.node (tree first.2) (tree second.2))) := by
  obtain ⟨hnodup, hroots, hhangs, hleaves, hweights⟩ := hforest
  obtain ⟨hrootFirst, hroots⟩ := List.forall_mem_cons.mp hroots
  obtain ⟨hrootSecond, hroots⟩ := List.forall_mem_cons.mp hroots
  obtain ⟨hhangsFirst, hhangs⟩ := List.forall_mem_cons.mp hhangs
  obtain ⟨hhangsSecond, hhangs⟩ := List.forall_mem_cons.mp hhangs
  rw [map_cons, nodup_cons, map_cons, mem_cons, not_or, nodup_cons] at hnodup
  obtain ⟨⟨-, hfirstRest⟩, hsecondRest, hrest⟩ := hnodup
  have hfirstLt := (List.getElem?_eq_some_iff.mp hrootFirst).1
  have hsecondLt := (List.getElem?_eq_some_iff.mp hrootSecond).1
  have hlt : ∀ entry ∈ heap, entry.2 < parent.length :=
    fun entry hentry => (List.getElem?_eq_some_iff.mp (hroots entry hentry)).1
  have hold : ∀ entry ∈ heap, Function.update tree parent.length
      (.node (tree first.2) (tree second.2)) entry.2 = tree entry.2 :=
    fun entry hentry => Function.update_of_ne (Nat.ne_of_lt (hlt entry hentry)) _ _
  have hlength : parent.length ≤ (joinRoots parent first.2 second.2).length := by
    rw [joinRoots_length]
    exact Nat.le_succ _
  refine ⟨?_, ?_, ?_, ?_, ?_⟩
  · rw [map_append]
    refine hrest.append (nodup_singleton _) ?_
    intro node hnode hnew
    obtain ⟨entry, hentry, rfl⟩ := mem_map.mp hnode
    exact absurd (mem_singleton.mp hnew) (Nat.ne_of_lt (hlt entry hentry))
  · refine forall_mem_append.mpr ⟨fun entry hentry => ?_, forall_mem_singleton.mpr ?_⟩
    · have hne : entry.2 ≠ first.2 :=
        fun heq => hfirstRest (heq ▸ mem_map_of_mem hentry)
      have hne' : entry.2 ≠ second.2 := fun heq => hsecondRest (heq ▸ mem_map_of_mem hentry)
      rw [joinRoots_getElem?_of_ne hne hne', getElem?_append_left (hlt entry hentry),
        hroots entry hentry]
    · simp [joinRoots_getElem?_of_ne (Nat.ne_of_gt hfirstLt) (Nat.ne_of_gt hsecondLt)]
  · refine forall_mem_append.mpr ⟨fun entry hentry => ?_, forall_mem_singleton.mpr ?_⟩
    · rw [hold entry hentry]
      exact (hhangs entry hentry).mono hlength (joinRoots_links hrootFirst hrootSecond)
    · rw [Function.update_self]
      exact joinRoots_hangs hrootFirst hrootSecond hhangsFirst hhangsSecond
  · rw [flatMap_cons, flatMap_cons, ← append_assoc] at hleaves
    rw [flatMap_append, flatMap_singleton, Function.update_self,
      flatMap_congr fun entry hentry => by rw [hold entry hentry]]
    exact perm_append_comm.trans hleaves
  · rw [map_cons, map_cons, sum_cons, sum_cons] at hweights
    rw [map_append, map_singleton, sum_append, sum_singleton]
    omega

/-- A merge keeps the forest and takes one root away. -/
theorem Merging.step_eq {state : Merging} (haligned : state.weight.length = state.parent.length)
    (hforest : Forest state.parent state.heap symbols total tree) (hmore : 1 < state.heap.length)
    (htotal : total < 2 ^ 64) :
    ∃ next tree', state.step = .ok next ∧ next.weight.length = next.parent.length ∧
      Forest next.parent next.heap symbols total tree' ∧
      next.heap.length + 1 = state.heap.length ∧ state.parent.length ≤ next.parent.length := by
  obtain ⟨first, others, hpopFirst, hpermFirst⟩ :=
    exists_heapPop (ne_nil_of_length_pos (Nat.zero_lt_of_lt hmore))
  have hlengthFirst := hpermFirst.length_eq
  rw [length_cons] at hlengthFirst
  obtain ⟨second, rest, hpopSecond, hpermSecond⟩ :=
    exists_heapPop (ne_nil_of_length_pos (by omega : 0 < others.length))
  have hlengthSecond := hpermSecond.length_eq
  rw [length_cons] at hlengthSecond
  have hpopped := hforest.of_perm (hpermFirst.trans (hpermSecond.cons first))
  have hfirstLt := (hpopped.hangs first mem_cons_self).lt_length
  have hsecondLt := (hpopped.hangs second (mem_cons_of_mem _ mem_cons_self)).lt_length
  have hweights := hpopped.weights
  rw [map_cons, map_cons, sum_cons, sum_cons] at hweights
  refine ⟨⟨state.weight ++ [first.1 + second.1], joinRoots state.parent first.2 second.2,
    rest ++ [(first.1 + second.1, state.parent.length)]⟩, _, ?_, ?_, hpopped.join, ?_, ?_⟩
  · rw [Merging.step, hpopFirst, expect_some, ok_bind]
    dsimp only
    rw [hpopSecond, expect_some, ok_bind]
    dsimp only
    rw [add_of_lt (by omega), ok_bind, haligned,
      setIndex_of_lt (by rw [length_append]; omega), ok_bind, setIndex_of_lt (by
        rw [length_set, length_append]
        omega)]
    rfl
  · simp [joinRoots_length, haligned]
  · rw [length_append, length_singleton]
    omega
  · rw [joinRoots_length]
    exact Nat.le_succ _

/-- The merge loop ends with one tree that has all the symbols. -/
theorem Merging.run_eq (turns : ℕ) (state : Merging)
    (haligned : state.weight.length = state.parent.length)
    (hforest : Forest state.parent state.heap symbols total tree) (hheap : state.heap ≠ [])
    (hturns : state.heap.length ≤ turns) (htotal : total < 2 ^ 64) :
    ∃ final root rootTree, Merging.run turns state = .ok final ∧
      final.parent[root]? = some none ∧ Hangs final.parent root rootTree ∧
      rootTree.leaves.Perm symbols ∧ state.parent.length ≤ final.parent.length := by
  induction turns generalizing state tree with
  | zero => exact absurd (length_eq_zero_iff.mp (Nat.le_zero.mp hturns)) hheap
  | succ turns ih =>
    rw [Merging.run]
    by_cases hmore : 1 < state.heap.length
    · obtain ⟨next, tree', hstep, hnext, hforest', _, hgrows⟩ :=
        Merging.step_eq haligned hforest hmore htotal
      obtain ⟨final, root, rootTree, hrun, hroot, hhangs, hleaves, hlater⟩ :=
        ih next hnext hforest' (ne_nil_of_length_pos (by omega)) (by omega)
      refine ⟨final, root, rootTree, ?_, hroot, hhangs, hleaves, hgrows.trans hlater⟩
      rw [if_pos hmore, hstep, ok_bind, hrun]
    · have hone : state.heap.length = 1 := by
        have hpos := length_pos_iff.mpr hheap
        omega
      obtain ⟨entry, hentry⟩ := length_eq_one_iff.mp hone
      rw [hentry] at hforest
      have hleaves := hforest.leaves
      rw [flatMap_singleton] at hleaves
      exact ⟨state, entry.2, tree entry.2, if_neg hmore,
        hforest.root entry (mem_singleton_self entry),
        hforest.hangs entry (mem_singleton_self entry), hleaves, le_rfl⟩

theorem foldlM_writeDepth (depth : ℕ → ℕ) (symbols : List ℕ) (lengths : List ℕ)
    (hsymbols : ∀ symbol ∈ symbols, symbol < lengths.length ∧
      depthOf parent parent.length symbol 0 = .ok (depth symbol)) :
    symbols.foldlM (writeDepth parent) lengths =
      .ok (writeAll lengths (symbols.map fun symbol => (symbol, min (depth symbol) 255))) := by
  induction symbols generalizing lengths with
  | nil => rfl
  | cons symbol symbols ih =>
    obtain ⟨⟨hsymbol, hdepth⟩, hsymbols⟩ := forall_mem_cons.mp hsymbols
    rw [foldlM_cons, writeDepth, hdepth, ok_bind, setIndex_of_lt hsymbol,
      ok_bind, ih _ (by rwa [length_set]), map_cons, writeAll_cons]

theorem plantedForest (freq : List ℕ) :
    Forest (replicate freq.length none)
      ((liveSymbols freq).map fun symbol => (freq.getD symbol 0, symbol)) (liveSymbols freq)
      (freq.filter (0 < ·)).sum CodeTree.leaf := by
  have hlt : ∀ entry ∈ (liveSymbols freq).map fun symbol => (freq.getD symbol 0, symbol),
      entry.2 < freq.length := by
    intro entry hentry
    obtain ⟨symbol, hsymbol, rfl⟩ := mem_map.mp hentry
    exact lt_of_mem_liveSymbols hsymbol
  refine ⟨?_, ?_, ?_, ?_, ?_⟩
  · rw [map_map]
    exact (nodup_liveSymbols freq).map Function.injective_id
  · intro entry hentry
    rw [getElem?_replicate, if_pos (hlt entry hentry)]
  · intro entry hentry
    apply Hangs.leaf
    rw [length_replicate]
    exact hlt entry hentry
  · rw [flatMap_map]
    change ((liveSymbols freq).flatMap fun symbol => [symbol]).Perm (liveSymbols freq)
    rw [flatMap_singleton']
  · rw [map_map, filter_pos_eq]
    rfl

/-- The lengths written are the depths in one tree over the live symbols. -/
theorem mergedLengths_eq (hlive : liveSymbols freq ≠ [])
    (htotal : freq.sum < 2 ^ 64) :
    ∃ (tree : CodeTree ℕ) (depth : ℕ → ℕ), tree.leaves.Perm (liveSymbols freq) ∧
      (∀ entry ∈ tree.depths 0, depth entry.1 = entry.2) ∧
      mergedLengths freq = .ok (writeAll (replicate freq.length 0)
        ((liveSymbols freq).map fun symbol => (symbol, min (depth symbol) 255))) := by
  obtain ⟨final, root, tree, hrun, hroot, hhangs, hleaves, hgrown⟩ :=
    Merging.run_eq (liveSymbols freq).length
      ⟨freq, replicate freq.length none,
        (liveSymbols freq).map fun symbol => (freq.getD symbol 0, symbol)⟩
      length_replicate.symm (plantedForest freq) (by simpa using hlive)
      (length_map _).le (lt_of_le_of_lt (filter_sublist.sum_le_sum fun _ _ => Nat.zero_le _) htotal)
  rw [length_replicate] at hgrown
  have hnodup : ((tree.depths 0).map Prod.fst).Nodup := by
    rw [CodeTree.map_fst_depths]
    exact hleaves.nodup_iff.mpr (nodup_liveSymbols freq)
  choose! depth hdepth using fun symbol => @CodeTree.exists_mem_depths ℕ tree symbol
  refine ⟨tree, depth, hleaves, ?_, ?_⟩
  · intro entry hentry
    have hmem := hdepth entry.1 (CodeTree.mem_leaves_of_mem_depths hentry)
    have heq := inj_on_of_nodup_map hnodup hmem hentry rfl
    exact congrArg Prod.snd heq
  · rw [mergedLengths, hrun]
    apply foldlM_writeDepth depth
    intro symbol hsymbol
    rw [length_replicate]
    refine ⟨lt_of_mem_liveSymbols hsymbol, ?_⟩
    -- the fuel is the number of nodes, which is above the height of the tree
    have hleaf := hdepth symbol (hleaves.mem_iff.mpr hsymbol)
    have hheight := tree.height_lt_leaves
    have hbound := (CodeTree.depths_bounds hleaf).2
    have hcount := liveSymbols_length_le freq
    have hlength := hleaves.length_eq
    obtain ⟨turns, hturns⟩ : ∃ turns, final.parent.length = turns + 1 + depth symbol :=
      ⟨final.parent.length - 1 - depth symbol, by omega⟩
    rw [← zero_add (depth symbol)] at hleaf
    rw [hturns, hhangs.depthOf_eq hleaf, depthOf, index_eq_ok_iff.mpr hroot, ok_bind, zero_add]

/-- Lengths for the live symbols, of a prefix code unless they are too long. -/
structure NaturalLengths (freq lengths : List ℕ) : Prop where
  length_eq : lengths.length = freq.length
  live : ∀ symbol, 0 < lengths.getD symbol 0 ↔ 0 < freq.getD symbol 0
  kraft : (∀ symbol, lengths.getD symbol 0 ≤ maxCodeLen) →
    kraftUnits maxCodeLen lengths ≤ 2 ^ maxCodeLen

theorem getD_writeAll_live {value : ℕ → ℕ} :
    (writeAll (replicate freq.length 0)
      ((liveSymbols freq).map fun symbol => (symbol, value symbol))).getD symbol 0 =
      if 0 < freq.getD symbol 0 then value symbol else 0 := by
  have hkeys : (((liveSymbols freq).map fun symbol => (symbol, value symbol)).map Prod.fst) =
      liveSymbols freq := by
    rw [map_map]
    exact map_id _
  rw [getD_eq_getElem?_getD]
  by_cases hsymbol : symbol ∈ liveSymbols freq
  · have hentry : (symbol, value symbol) ∈
        (liveSymbols freq).map fun symbol => (symbol, value symbol) :=
      mem_map.mpr ⟨symbol, hsymbol, rfl⟩
    rw [if_pos (mem_liveSymbols_iff.mp hsymbol),
      writeAll_getElem?_of_mem _ (by rw [hkeys]; exact nodup_liveSymbols freq) hentry (by
        rw [length_replicate]
        exact lt_of_mem_liveSymbols hsymbol), Option.getD_some]
  · rw [if_neg (mt mem_liveSymbols_iff.mpr hsymbol),
      writeAll_getElem?_of_notMem (by rwa [hkeys]), getElem?_replicate]
    split_ifs <;> rfl

theorem writeAll_live_natural (value : ℕ → ℕ)
    (hpos : ∀ symbol ∈ liveSymbols freq, 0 < value symbol)
    (hkraft : (∀ symbol ∈ liveSymbols freq, value symbol ≤ maxCodeLen) →
      ((liveSymbols freq).map fun symbol => weight maxCodeLen (value symbol)).sum ≤
        2 ^ maxCodeLen) :
    NaturalLengths freq (writeAll (replicate freq.length 0)
      ((liveSymbols freq).map fun symbol => (symbol, value symbol))) := by
  set lengths := writeAll (replicate freq.length 0)
    ((liveSymbols freq).map fun symbol => (symbol, value symbol)) with hlengths
  have hlength : lengths.length = freq.length := by
    rw [writeAll_length, length_replicate]
  have hget : ∀ symbol ∈ liveSymbols freq, lengths.getD symbol 0 = value symbol := by
    intro symbol hsymbol
    rw [getD_writeAll_live, if_pos (mem_liveSymbols_iff.mp hsymbol)]
  have hlive : ∀ symbol, 0 < lengths.getD symbol 0 ↔ 0 < freq.getD symbol 0 := by
    intro symbol
    rw [getD_writeAll_live]
    split_ifs with hsymbol
    · exact iff_of_true (hpos symbol (mem_liveSymbols_iff.mpr hsymbol)) hsymbol
    · omega
  refine ⟨hlength, hlive, fun hshort => ?_⟩
  have hsum := hkraft fun symbol hsymbol => by
    rw [← hget symbol hsymbol]
    exact hshort symbol
  rw [kraftUnits_eq_sum, liveSymbols_congr hlength hlive,
    map_congr_left fun symbol hsymbol => by rw [hget symbol hsymbol]]
  exact hsum

theorem mergedLengths_natural (hlive : 1 < (liveSymbols freq).length)
    (htotal : freq.sum < 2 ^ 64) :
    ∃ lengths, mergedLengths freq = .ok lengths ∧ NaturalLengths freq lengths := by
  obtain ⟨tree, depth, hleaves, hdepth, hmerged⟩ :=
    mergedLengths_eq (ne_nil_of_length_pos (Nat.zero_lt_of_lt hlive)) htotal
  refine ⟨_, hmerged, writeAll_live_natural _ (fun symbol hsymbol => ?_) fun hshort => ?_⟩
  · obtain ⟨found, hfound⟩ := CodeTree.exists_mem_depths (hleaves.mem_iff.mpr hsymbol)
    rw [hdepth _ hfound]
    exact lt_min (CodeTree.depths_pos (hleaves.length_eq ▸ hlive) hfound) (by decide)
  · have hlimit : ∀ symbol ∈ liveSymbols freq, min (depth symbol) 255 = depth symbol ∧
        depth symbol ≤ maxCodeLen := by
      intro symbol hsymbol
      have hle := hshort symbol hsymbol
      have hmax : maxCodeLen = 15 := rfl
      omega
    have hheight : 0 + tree.height ≤ maxCodeLen := by
      apply CodeTree.height_le_of_depths
      intro entry hentry
      have hsymbol := CodeTree.mem_leaves_of_mem_depths hentry
      rw [← hdepth entry hentry]
      exact (hlimit entry.1 (hleaves.mem_iff.mp hsymbol)).2
    apply le_of_eq
    calc ((liveSymbols freq).map fun symbol => weight maxCodeLen (min (depth symbol) 255)).sum
        = ((liveSymbols freq).map fun symbol => weight maxCodeLen (depth symbol)).sum := by
          rw [map_congr_left fun symbol hsymbol => by rw [(hlimit symbol hsymbol).1]]
      _ = (tree.leaves.map fun symbol => weight maxCodeLen (depth symbol)).sum :=
          ((hleaves.map _).sum_eq).symm
      _ = ((tree.depths 0).map fun entry => weight maxCodeLen (depth entry.1)).sum := by
          rw [← CodeTree.map_fst_depths 0, map_map]
          rfl
      _ = ((tree.depths 0).map fun entry => weight maxCodeLen entry.2).sum := by
          rw [map_congr_left fun entry hentry => by rw [hdepth entry hentry]]
      _ = weight maxCodeLen 0 := CodeTree.sum_weight_depths hheight

theorem huffmanLengths_natural (htotal : freq.sum < 2 ^ 64) :
    ∃ lengths, huffmanLengths freq = .ok lengths ∧ NaturalLengths freq lengths := by
  rw [huffmanLengths]
  split
  · rename_i hnone
    have hnatural := @writeAll_live_natural freq (fun _ => 1) (fun _ _ => Nat.one_pos)
      (fun _ => by rw [hnone]; exact Nat.zero_le _)
    rw [hnone] at hnatural
    exact ⟨_, rfl, hnatural⟩
  · rename_i symbol hone
    have hnatural := @writeAll_live_natural freq (fun _ => 1) (fun _ _ => Nat.one_pos)
      (fun _ => by rw [hone, map_singleton]; decide)
    rw [hone] at hnatural
    refine ⟨_, setIndex_of_lt ?_, hnatural⟩
    rw [length_replicate]
    exact lt_of_mem_liveSymbols (hone ▸ mem_singleton_self symbol)
  · rename_i hmany hsingle
    refine mergedLengths_natural ?_ htotal
    by_contra hfew
    cases hlive : liveSymbols freq with
    | nil => exact hmany hlive
    | cons symbol rest =>
      rw [hlive, length_cons] at hfew
      have hrest : rest = [] := length_eq_zero_iff.mp (by omega)
      exact hsingle symbol (hrest ▸ hlive)

theorem sum_map_set (f : ℕ → ℕ) (items : List ℕ) {position : ℕ} (value : ℕ)
    (hposition : position < items.length) :
    ((items.set position value).map f).sum + f items[position] = (items.map f).sum + f value := by
  have hset := ((set_perm_cons_eraseIdx hposition value).map f).sum_eq
  have hitems := ((getElem_cons_eraseIdx_perm hposition).map f).sum_eq
  rw [map_cons, sum_cons] at hset hitems
  omega

/-- The share of one length in the Kraft sum. -/
def kraftShare (width length : ℕ) : ℕ := if 0 < length then weight width length else 0

theorem kraftUnits_eq_sum_share (width : ℕ) (lengths : List ℕ) :
    kraftUnits width lengths = (lengths.map (kraftShare width)).sum := by
  rw [kraftUnits]
  induction lengths with
  | nil => rfl
  | cons length lengths ih =>
    rw [map_cons, sum_cons, ← ih, kraftShare]
    by_cases hpos : 0 < length
    · rw [filter_cons_of_pos (by simpa using hpos), map_cons, sum_cons, if_pos hpos, weight]
    · rw [filter_cons_of_neg (by simpa using hpos), if_neg hpos, zero_add]

/-- Lengths within the limit, for the live symbols of the given table. -/
structure LimitedLengths (freq lengths : List ℕ) : Prop where
  length_eq : lengths.length = freq.length
  live : ∀ symbol, 0 < lengths.getD symbol 0 ↔ 0 < freq.getD symbol 0
  short : ∀ symbol, lengths.getD symbol 0 ≤ maxCodeLen

theorem longest_le_of_getD_le {lengths : List ℕ} {bound : ℕ}
    (hbound : ∀ symbol, lengths.getD symbol 0 ≤ bound) : longest lengths ≤ bound := by
  have hle : ∀ (items : List ℕ) (least : ℕ), least ≤ bound → (∀ item ∈ items, item ≤ bound) →
      items.foldl max least ≤ bound := by
    intro items
    induction items with
    | nil => exact fun least hleast _ => hleast
    | cons item items ih =>
      intro least hleast hitems
      obtain ⟨hitem, hitems⟩ := forall_mem_cons.mp hitems
      exact ih _ (max_le hleast hitem) hitems
  refine hle lengths 0 (Nat.zero_le _) fun length hlength => ?_
  obtain ⟨symbol, hsymbol, rfl⟩ := getElem_of_mem hlength
  rw [← getD_eq_getElem lengths 0 hsymbol]
  exact hbound symbol

theorem LimitedLengths.longest_le (hlengths : LimitedLengths freq lengths) :
    longest lengths ≤ maxCodeLen :=
  longest_le_of_getD_le hlengths.short

theorem LimitedLengths.kraftUnits_of_full
    (hlengths : LimitedLengths freq lengths)
    (hfull : ∀ symbol ∈ liveSymbols freq, lengths.getD symbol 0 = maxCodeLen) :
    kraftUnits maxCodeLen lengths = (liveSymbols freq).length := by
  have hone : (liveSymbols freq).map (fun symbol => weight maxCodeLen (lengths.getD symbol 0)) =
      (liveSymbols freq).map fun _ => 1 := by
    apply map_congr_left
    intro symbol hsymbol
    rw [hfull symbol hsymbol, weight, Nat.sub_self, pow_zero]
  rw [kraftUnits_eq_sum, liveSymbols_congr hlengths.length_eq hlengths.live, hone, map_const',
    sum_replicate, Nat.nsmul_eq_mul, mul_one]

section Lengthen

variable (hlengths : LimitedLengths freq lengths) {symbol : ℕ}
  (hinside : symbol < lengths.length) (hpos : 0 < lengths[symbol])
  (hroom : lengths[symbol] < maxCodeLen)

include hlengths hpos hroom in
theorem LimitedLengths.set_succ :
    LimitedLengths freq (lengths.set symbol (lengths[symbol] + 1)) := by
  have hget : ∀ other, (lengths.set symbol (lengths[symbol] + 1)).getD other 0 =
      if symbol = other then lengths[symbol] + 1 else lengths.getD other 0 := by
    intro other
    rw [getD_eq_getElem?_getD, getElem?_set]
    split_ifs <;> rfl
  have hself : lengths.getD symbol 0 = lengths[symbol] := getD_eq_getElem _ _ hinside
  refine ⟨by rw [length_set, hlengths.length_eq], fun other => ?_, fun other => ?_⟩
  · rw [hget, ← hlengths.live other]
    split_ifs with hother
    · rw [← hother, hself]
      omega
    · rfl
  · rw [hget]
    split_ifs
    · exact hroom
    · exact hlengths.short other

include hpos hroom in
/-- One more bit halves the share of a word. -/
theorem kraftUnits_set_succ :
    kraftUnits maxCodeLen (lengths.set symbol (lengths[symbol] + 1)) +
      2 ^ (maxCodeLen - lengths[symbol] - 1) = kraftUnits maxCodeLen lengths := by
  have hset := sum_map_set (kraftShare maxCodeLen) lengths (lengths[symbol] + 1) hinside
  have hhalf : weight maxCodeLen lengths[symbol] = 2 * 2 ^ (maxCodeLen - lengths[symbol] - 1) := by
    rw [weight, ← pow_succ']
    congr 1
    omega
  rw [kraftShare, if_pos hpos, kraftShare, if_pos (Nat.succ_pos _), hhalf, weight,
    ← Nat.sub_sub] at hset
  rw [kraftUnits_eq_sum_share, kraftUnits_eq_sum_share]
  omega

end Lengthen

/-- **The limiter.** There is room for one more bit as long as the words do not fit. -/
theorem lengthen_eq {freq order : List ℕ}
    (horder : ∀ symbol, symbol ∈ order ↔ 0 < freq.getD symbol 0)
    (hcapacity : (liveSymbols freq).length ≤ 2 ^ maxCodeLen) (turns : ℕ) (lengths : List ℕ)
    (hlengths : LimitedLengths freq lengths)
    (hturns : (lengths.map (maxCodeLen - ·)).sum < turns) :
    ∃ limited, lengthen maxCodeLen order turns (kraftUnits maxCodeLen lengths) lengths =
        .ok limited ∧ LimitedLengths freq limited ∧
      kraftUnits maxCodeLen limited ≤ 2 ^ maxCodeLen := by
  induction turns generalizing lengths with
  | zero => exact absurd hturns (Nat.not_lt_zero _)
  | succ turns ih =>
    rw [lengthen]
    by_cases hover : 2 ^ maxCodeLen < kraftUnits maxCodeLen lengths
    · rw [if_pos hover]
      cases hfind : order.find? fun symbol => lengths.getD symbol 0 < maxCodeLen with
      | none =>
        -- all words have the full length, and there are enough of those
        have hfull := hlengths.kraftUnits_of_full fun symbol hsymbol => by
          have hshort := hlengths.short symbol
          have hnot := find?_eq_none.mp hfind symbol
            ((horder symbol).mpr (mem_liveSymbols_iff.mp hsymbol))
          rw [decide_eq_true_eq] at hnot
          omega
        omega
      | some symbol =>
        have hlive : 0 < lengths.getD symbol 0 :=
          (hlengths.live symbol).mpr ((horder symbol).mp (mem_of_find?_eq_some hfind))
        have hinside : symbol < lengths.length :=
          lt_of_mem_liveSymbols (mem_liveSymbols_iff.mpr hlive)
        have hroom := find?_some hfind
        rw [decide_eq_true_eq] at hroom
        rw [getD_eq_getElem _ _ hinside] at hlive hroom
        have hkraft := kraftUnits_set_succ hinside hlive hroom
        have hslack := sum_map_set (maxCodeLen - ·) lengths (lengths[symbol] + 1) hinside
        dsimp only at hslack ⊢
        rw [index_of_lt hinside, ok_bind, sub_of_le (by omega), ← Nat.eq_sub_of_add_eq hkraft]
        exact ih _ (hlengths.set_succ hinside hlive hroom) (by omega)
    · exact ⟨lengths, if_neg hover, hlengths, not_lt.mp hover⟩

theorem limitLengths_eq (hlengths : NaturalLengths freq lengths)
    (hcapacity : (liveSymbols freq).length ≤ 2 ^ maxCodeLen) :
    ∃ limited, limitLengths lengths freq maxCodeLen = .ok limited ∧
      LimitedLengths freq limited ∧ kraftUnits maxCodeLen limited ≤ 2 ^ maxCodeLen := by
  rw [limitLengths]
  by_cases hshort : lengths.all (· ≤ maxCodeLen)
  · have hle : ∀ symbol, lengths.getD symbol 0 ≤ maxCodeLen := by
      intro symbol
      rw [getD_eq_getElem?_getD]
      cases hget : lengths[symbol]? with
      | none => exact Nat.zero_le _
      | some length =>
        exact of_decide_eq_true (all_eq_true.mp hshort length (mem_of_getElem? hget))
    exact ⟨lengths, if_pos hshort, ⟨hlengths.length_eq, hlengths.live, hle⟩, hlengths.kraft hle⟩
  · rw [if_neg hshort]
    have hget : ∀ symbol, (lengths.map (min maxCodeLen)).getD symbol 0 =
        min maxCodeLen (lengths.getD symbol 0) := by
      intro symbol
      rw [getD_eq_getElem?_getD, getD_eq_getElem?_getD, getElem?_map]
      cases lengths[symbol]? <;> rfl
    have hclamped : LimitedLengths freq (lengths.map (min maxCodeLen)) := by
      refine ⟨by rw [length_map, hlengths.length_eq], fun symbol => ?_, fun symbol => ?_⟩
      · rw [hget, lt_min_iff, hlengths.live symbol, and_iff_right (by decide)]
      · rw [hget]
        exact min_le_left _ _
    refine lengthen_eq ?_ hcapacity _ _ hclamped ?_
    · intro symbol
      rw [(sortBy_perm _ _).mem_iff, ← liveSymbols, mem_liveSymbols_iff, hclamped.live]
    · have hsum := sum_le_card_nsmul
        ((lengths.map (min maxCodeLen)).map (maxCodeLen - ·)) maxCodeLen (by
          intro slack hslack
          obtain ⟨length, _, rfl⟩ := mem_map.mp hslack
          exact Nat.sub_le _ _)
      rw [length_map] at hsum
      exact Nat.lt_succ_of_le hsum

/-- Words that fit into the full width fit into the width of the longest one. -/
theorem kraftUnits_longest {lengths : List ℕ} (hshort : longest lengths ≤ maxCodeLen)
    (hkraft : kraftUnits maxCodeLen lengths ≤ 2 ^ maxCodeLen) :
    kraftUnits (longest lengths) lengths ≤ 2 ^ longest lengths := by
  have hscale : kraftUnits maxCodeLen lengths =
      2 ^ (maxCodeLen - longest lengths) * kraftUnits (longest lengths) lengths := by
    rw [kraftUnits, kraftUnits, ← sum_map_mul_left]
    apply congrArg sum
    apply map_congr_left
    intro length hlength
    have hle := le_longest (mem_of_mem_filter hlength)
    rw [← pow_add]
    congr 1
    omega
  have hpow : 2 ^ maxCodeLen = 2 ^ (maxCodeLen - longest lengths) * 2 ^ longest lengths := by
    rw [← pow_add, Nat.sub_add_cancel hshort]
  rw [hscale, hpow] at hkraft
  exact Nat.le_of_mul_le_mul_left hkraft (Nat.two_pow_pos _)

end Tritium.Salt

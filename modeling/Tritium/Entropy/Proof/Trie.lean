import Tritium.Entropy.Proof.CanonicalCodes

/-!
# The decoding trie

The nodes of the trie stand for the prefixes of the codes inserted so far. The table is a function of
the list of these prefixes, in the order in which they were met, and of the symbols at some of them;
inserting a code extends the list.
-/

namespace Tritium.Entropy

open List
open Function (update update_of_ne update_self)
open PrefixCode

/-! ### Tries as lists of paths -/

def pathLink (paths : List (List ℕ)) (path : List ℕ) : ℤ :=
  if path ∈ paths then (paths.idxOf path : ℤ) else -1

def pathNode (paths : List (List ℕ)) (symbolOf : List ℕ → Option ℕ) (path : List ℕ) : TrieNode :=
  ⟨[pathLink paths (path ++ [0]), pathLink paths (path ++ [1])], symbolOf path⟩

def trieOf (paths : List (List ℕ)) (symbolOf : List ℕ → Option ℕ) : List TrieNode :=
  paths.map (pathNode paths symbolOf)

/-- The paths of a trie: no path twice, the root first, every path behind its parent's. -/
structure IsTrie (paths : List (List ℕ)) : Prop where
  nodup : paths.Nodup
  root : paths[0]? = some []
  closed : ∀ path bit, path ++ [bit] ∈ paths → path ∈ paths

def extendPaths (paths : List (List ℕ)) (path : List ℕ) : List (List ℕ) :=
  if path ∈ paths then paths else paths ++ [path]

variable {paths : List (List ℕ)} {symbolOf : List ℕ → Option ℕ} {path code : List ℕ} {bit : ℕ}

theorem index_trieOf {ε : Type} (hpath : path ∈ paths) :
    (Outcome.index (trieOf paths symbolOf) (paths.idxOf path) : Outcome ε TrieNode) =
      .ok (pathNode paths symbolOf path) := by
  have hlt : paths.idxOf path < paths.length := idxOf_lt_length_of_mem hpath
  rw [index_of_lt (by rwa [trieOf, length_map])]
  simp [trieOf]

theorem index_children {ε : Type} (hbit : bit < 2) :
    (Outcome.index (pathNode paths symbolOf path).children bit : Outcome ε ℤ) =
      .ok (pathLink paths (path ++ [bit])) := by
  obtain rfl | rfl : bit = 0 ∨ bit = 1 := by omega
  · rfl
  · rfl

theorem pathLink_neg_iff : pathLink paths path < 0 ↔ path ∉ paths := by
  rw [pathLink]
  split_ifs with hmem
  · simp only [hmem, not_true_eq_false, iff_false, not_lt]
    omega
  · simp [hmem]

theorem pathLink_toNat (hpath : path ∈ paths) : (pathLink paths path).toNat = paths.idxOf path := by
  rw [pathLink, if_pos hpath, Int.toNat_natCast]

theorem pathLink_append_of_ne {added : List ℕ} (hne : path ≠ added) :
    pathLink (paths ++ [added]) path = pathLink paths path := by
  rw [pathLink, pathLink]
  by_cases hmem : path ∈ paths
  · rw [if_pos (mem_append_left _ hmem), if_pos hmem, idxOf_append_of_mem hmem]
  · have hnotMem : path ∉ paths ++ [added] := by
      rw [mem_append, mem_singleton]
      exact not_or.mpr ⟨hmem, hne⟩
    rw [if_neg hnotMem, if_neg hmem]

theorem pathLink_append_self (hpath : path ∉ paths) :
    pathLink (paths ++ [path]) path = paths.length := by
  rw [pathLink, if_pos (mem_append_right _ (mem_singleton_self path)),
    idxOf_append_of_notMem hpath, idxOf_cons_self, add_zero]

theorem pathNode_append_of_ne {parent : List ℕ} (hne : path ≠ parent) :
    pathNode (paths ++ [parent ++ [bit]]) symbolOf path = pathNode paths symbolOf path := by
  have hother : ∀ other, path ++ [other] ≠ parent ++ [bit] :=
    fun other heq => hne (append_inj_left' heq rfl)
  rw [pathNode, pathLink_append_of_ne (hother 0), pathLink_append_of_ne (hother 1), pathNode]

theorem pathNode_append_self (hbit : bit < 2) (hadded : path ++ [bit] ∉ paths) :
    pathNode (paths ++ [path ++ [bit]]) symbolOf path = { pathNode paths symbolOf path with
        children := (pathNode paths symbolOf path).children.set bit paths.length } := by
  obtain rfl | rfl : bit = 0 ∨ bit = 1 := by omega
  · rw [pathNode, pathLink_append_self hadded, pathLink_append_of_ne (by simp)]
    rfl
  · rw [pathNode, pathLink_append_self hadded, pathLink_append_of_ne (by simp)]
    rfl

/-- Adding a child writes one link and appends one empty node. -/
theorem trieOf_append (hpaths : IsTrie paths) (hbit : bit < 2)
    (hadded : path ++ [bit] ∉ paths) (hsymbol : symbolOf (path ++ [bit]) = none) :
    (trieOf paths symbolOf).set (paths.idxOf path)
          { pathNode paths symbolOf path with
            children := (pathNode paths symbolOf path).children.set bit paths.length } ++
        [TrieNode.empty] = trieOf (paths ++ [path ++ [bit]]) symbolOf := by
  have hempty : pathNode (paths ++ [path ++ [bit]]) symbolOf (path ++ [bit]) = TrieNode.empty := by
    have hlink : ∀ other, pathLink (paths ++ [path ++ [bit]]) (path ++ [bit] ++ [other]) = -1 := by
      intro other
      rw [pathLink_append_of_ne (by simp), pathLink,
        if_neg fun hmem => hadded (hpaths.closed _ _ hmem)]
    rw [pathNode, hlink, hlink, hsymbol]
    rfl
  have hold : (trieOf paths symbolOf).set (paths.idxOf path)
        { pathNode paths symbolOf path with
          children := (pathNode paths symbolOf path).children.set bit paths.length } =
      paths.map (pathNode (paths ++ [path ++ [bit]]) symbolOf) := by
    apply ext_getElem
    · simp [trieOf]
    · intro i hi _
      rw [length_set, trieOf, length_map] at hi
      rw [getElem_set, getElem_map]
      by_cases heq : paths.idxOf path = i
      · rw [if_pos heq, ← pathNode_append_self hbit hadded]
        subst heq
        rw [getElem_idxOf]
      · rw [if_neg heq]
        have hne : paths[i] ≠ path := by
          intro hsame
          apply heq
          rw [← hsame]
          exact hpaths.nodup.idxOf_getElem i hi
        simp [trieOf, pathNode_append_of_ne hne]
  rw [hold, trieOf, map_append, map_singleton, hempty]

theorem mem_extendPaths_iff {other : List ℕ} :
    other ∈ extendPaths paths path ↔ other ∈ paths ∨ other = path := by
  rw [extendPaths]
  split_ifs with hmem
  · constructor
    · exact Or.inl
    · rintro (hother | rfl)
      · exact hother
      · exact hmem
  · simp

theorem extendPaths_length_le (paths : List (List ℕ)) (path : List ℕ) :
    (extendPaths paths path).length ≤ paths.length + 1 := by
  rw [extendPaths]
  split_ifs
  · exact Nat.le_succ _
  · simp

section

variable (hpaths : IsTrie paths)

include hpaths

theorem IsTrie.extend (hpath : path ∈ paths) (bit : ℕ) :
    IsTrie (extendPaths paths (path ++ [bit])) := by
  rw [extendPaths]
  split_ifs with hmem
  · exact hpaths
  · refine ⟨?_, ?_, ?_⟩
    · exact nodup_append.mpr ⟨hpaths.nodup, nodup_singleton _, by
        intro left hleft right hright
        rw [mem_singleton.mp hright]
        exact fun heq => hmem (heq ▸ hleft)⟩
    · have hlt : 0 < paths.length := length_pos_of_mem hpath
      rw [getElem?_append_left hlt]
      exact hpaths.root
    · intro parent last hchild
      obtain hold | hnew := mem_append.mp hchild
      · exact mem_append_left _ (hpaths.closed parent last hold)
      · rw [append_inj_left' (mem_singleton.mp hnew) rfl]
        exact mem_append_left _ hpath

theorem IsTrie.idxOf_root : paths.idxOf [] = 0 := by
  cases paths with
  | nil => exact absurd hpaths.root (by simp)
  | cons first rest =>
    have hfirst : first = [] := Option.some.inj hpaths.root
    rw [hfirst, idxOf_cons_self]

theorem IsTrie.mem_of_isPrefix (hcode : code ∈ paths) (hleading : path <+: code) :
    path ∈ paths := by
  obtain ⟨rest, rfl⟩ := hleading
  induction rest using reverseRecOn with
  | nil => rwa [append_nil] at hcode
  | append_singleton rest bit ih =>
    rw [← append_assoc] at hcode
    exact ih (hpaths.closed _ _ hcode)

theorem enterChild_eq (hpath : path ∈ paths) (hbit : bit < 2) (hparent : symbolOf path = none)
    (hchild : symbolOf (path ++ [bit]) = none ∨ path ++ [bit] ∈ paths)
    (hsmall : paths.length < 2 ^ 31) :
    enterChild (trieOf paths symbolOf) (paths.idxOf path) bit =
      .ok (trieOf (extendPaths paths (path ++ [bit])) symbolOf,
        (extendPaths paths (path ++ [bit])).idxOf (path ++ [bit])) := by
  have hlength : (trieOf paths symbolOf).length = paths.length := length_map ..
  have hunnamed : ¬(pathNode paths symbolOf path).symbol.isSome = true := by
    change ¬(symbolOf path).isSome = true
    rw [hparent]
    simp
  rw [enterChild, index_trieOf hpath, ok_bind, if_neg hunnamed,
    if_neg (not_lt.mpr (Nat.le_of_lt_succ hbit)), index_children hbit, ok_bind, extendPaths]
  by_cases hmem : path ++ [bit] ∈ paths
  · rw [if_neg (mt pathLink_neg_iff.mp (not_not.mpr hmem)), if_pos hmem, pathLink_toNat hmem,
      pure_eq_ok]
  · have hsymbol := hchild.resolve_right hmem
    have hindex : paths.idxOf path < (trieOf paths symbolOf).length := by
      rw [hlength]
      exact idxOf_lt_length_of_mem hpath
    rw [if_pos (pathLink_neg_iff.mpr hmem), if_neg hmem, hlength, tryInto_of_lt hsmall,
      okOr_bind, setIndex_of_lt (by exact hbit), ok_bind,
      setIndex_of_lt hindex, ok_bind, trieOf_append hpaths hbit hmem hsymbol,
      idxOf_append_of_notMem hmem, idxOf_cons_self, add_zero, pure_eq_ok]

theorem placeSymbol_eq (hcode : code ∈ paths) (hunnamed : symbolOf code = none)
    (hend : ∀ bit, code ++ [bit] ∉ paths) (symbol : ℕ) :
    placeSymbol (trieOf paths symbolOf) (paths.idxOf code) symbol =
      .ok (trieOf paths (update symbolOf code (some symbol))) := by
  have hreached : pathNode paths symbolOf code = TrieNode.empty := by
    rw [pathNode, pathLink, pathLink, if_neg (hend 0), if_neg (hend 1), hunnamed]
    rfl
  have hindex : paths.idxOf code < (trieOf paths symbolOf).length := by
    rw [trieOf, length_map]
    exact idxOf_lt_length_of_mem hcode
  have hplaced : (trieOf paths symbolOf).set (paths.idxOf code)
      { pathNode paths symbolOf code with symbol := some symbol } =
        trieOf paths (update symbolOf code (some symbol)) := by
    apply ext_getElem
    · simp [trieOf]
    · intro i hi _
      rw [length_set, trieOf, length_map] at hi
      rw [getElem_set]
      simp only [trieOf, getElem_map]
      by_cases heq : paths.idxOf code = i
      · subst heq
        simp [pathNode]
      · have hne : paths[i] ≠ code := by
          intro hsame
          apply heq
          rw [← hsame]
          exact hpaths.nodup.idxOf_getElem i hi
        simp only [if_neg heq, pathNode, update_of_ne hne]
  rw [placeSymbol, index_trieOf hcode, ok_bind, if_neg (by rw [hreached]; decide),
    setIndex_of_lt hindex, hplaced]

end

/-- A run over the bits of a code adds the missing prefixes and names the last. -/
theorem foldlM_descendBit (hbinary : Binary code) (symbol : ℕ)
    (hunnamed : ∀ leading, leading <+: code → symbolOf leading = none) (rest done : List ℕ)
    (hcode : done ++ rest = code) (hrest : rest ≠ []) (hpaths : IsTrie paths) (hdone : done ∈ paths)
    (hend : ∀ bit, code ++ [bit] ∉ paths) (hsmall : paths.length + rest.length < 2 ^ 31) :
    ∃ extended,
      (rest.zipIdx done.length).foldlM (descendBit code.length symbol)
          (trieOf paths symbolOf, paths.idxOf done) =
        .ok (trieOf extended (update symbolOf code (some symbol)), extended.idxOf code) ∧
      IsTrie extended ∧ code ∈ extended ∧ (∀ path ∈ paths, path ∈ extended) ∧
      (∀ path ∈ extended, path ∈ paths ∨ path <+: code) ∧
      extended.length ≤ paths.length + rest.length := by
  induction rest generalizing done paths with
  | nil => exact absurd rfl hrest
  | cons bit rest ih =>
    have hnext : done ++ [bit] ++ rest = code := by rw [append_assoc]; exact hcode
    have hbit : bit < 2 := hbinary bit (by rw [← hcode]; simp)
    have hdoneLeads : done <+: code := ⟨_, hcode⟩
    have hnextLeads : done ++ [bit] <+: code := ⟨_, hnext⟩
    rw [length_cons] at hsmall
    have henter := enterChild_eq hpaths hdone hbit (hunnamed _ hdoneLeads)
      (Or.inl (hunnamed _ hnextLeads)) (by omega)
    have hextended := hpaths.extend hdone bit
    have hreached : done ++ [bit] ∈ extendPaths paths (done ++ [bit]) :=
      mem_extendPaths_iff.mpr (Or.inr rfl)
    have hlengthLe := extendPaths_length_le paths (done ++ [bit])
    have hendNext : ∀ other, code ++ [other] ∉ extendPaths paths (done ++ [bit]) := by
      intro other hmem
      obtain hold | hnew := mem_extendPaths_iff.mp hmem
      · exact hend other hold
      · have hlong := hnextLeads.length_le
        rw [← hnew, length_append, length_singleton] at hlong
        omega
    rw [zipIdx_cons, foldlM_cons, descendBit]
    dsimp only
    rw [henter, ok_bind]
    have hcodeLength := congrArg length hcode
    rw [length_append, length_cons] at hcodeLength
    cases rest with
    | nil =>
      rw [append_nil] at hnext
      rw [if_pos (by omega), hnext]
      rw [hnext] at hreached hendNext hextended hlengthLe
      rw [placeSymbol_eq hextended hreached (hunnamed _ (prefix_refl _)) hendNext]
      refine ⟨extendPaths paths code, rfl, hextended, hreached, fun path hpath => ?_,
        fun path hpath => ?_, hlengthLe⟩
      · exact mem_extendPaths_iff.mpr (Or.inl hpath)
      · obtain hold | rfl := mem_extendPaths_iff.mp hpath
        · exact Or.inl hold
        · simp
    | cons following rest =>
      rw [length_cons] at hcodeLength hsmall
      rw [if_neg (by omega)]
      obtain ⟨extended, hfold, htrie, hmem, hkept, hadded, hlength⟩ :=
        ih (done ++ [bit]) hnext (by simp) hextended hreached hendNext (by
          rw [length_cons]
          omega)
      rw [length_append] at hfold
      rw [length_cons] at hlength
      refine ⟨extended, hfold, htrie, hmem, fun path hpath => ?_, fun path hpath => ?_, ?_⟩
      · exact hkept path (mem_extendPaths_iff.mpr (Or.inl hpath))
      · obtain hold | hnew := hadded path hpath
        · obtain hold | rfl := mem_extendPaths_iff.mp hold
          · exact Or.inl hold
          · exact Or.inr hnextLeads
        · exact Or.inr hnew
      · rw [length_cons, length_cons]
        omega

/-- The trie of the inserted codes: its paths are their prefixes, and its symbols are at their
ends. -/
structure Inserted (paths : List (List ℕ)) (symbolOf : List ℕ → Option ℕ)
    (entries : List (Code × ℕ)) : Prop where
  isTrie : IsTrie paths
  covered : ∀ path ∈ paths, path = [] ∨ ∃ entry ∈ entries, path <+: entry.1.bits
  placed : ∀ entry ∈ entries, entry.1.bits ∈ paths ∧ symbolOf entry.1.bits = some entry.2
  named : ∀ path, symbolOf path ≠ none → ∃ entry ∈ entries, path = entry.1.bits
  small : paths.length ≤ 1 + entries.length * maxCodeBits

def Apart (left right : Code × ℕ) : Prop :=
  ¬left.1.bits <+: right.1.bits ∧ ¬right.1.bits <+: left.1.bits

theorem insertCode_step {entries : List (Code × ℕ)} {entry : Code × ℕ}
    (hinserted : Inserted paths symbolOf entries) (hcount : entries.length < 256)
    (hnonempty : entry.1.bits ≠ []) (hbinary : Binary entry.1.bits)
    (hlength : entry.1.bits.length ≤ maxCodeBits) (hapart : ∀ other ∈ entries, Apart other entry) :
    ∃ extended symbolOf', insertCode (trieOf paths symbolOf) entry =
        .ok (trieOf extended symbolOf') ∧ Inserted extended symbolOf' (entries ++ [entry]) := by
  have hmax : maxCodeBits = 255 := rfl
  have hsmall := hinserted.small
  rw [hmax] at hsmall
  have hunnamed : ∀ leading, leading <+: entry.1.bits → symbolOf leading = none := by
    intro leading hleading
    by_contra hsome
    obtain ⟨other, hother, rfl⟩ := hinserted.named leading hsome
    exact (hapart other hother).1 hleading
  have hend : ∀ bit, entry.1.bits ++ [bit] ∉ paths := by
    intro bit hmem
    obtain hnil | ⟨other, hother, hleading⟩ := hinserted.covered _ hmem
    · exact absurd hnil (by simp)
    · exact (hapart other hother).2 ((prefix_append _ _).trans hleading)
  obtain ⟨extended, hfold, htrie, hmem, hkept, hadded, _⟩ :=
    foldlM_descendBit hbinary entry.2 hunnamed entry.1.bits [] rfl hnonempty hinserted.isTrie
      (mem_of_getElem? hinserted.isTrie.root) hend (by omega)
  rw [length_nil, hinserted.isTrie.idxOf_root] at hfold
  refine ⟨extended, update symbolOf entry.1.bits (some entry.2), ?_, htrie, ?_, ?_, ?_, ?_⟩
  · rw [insertCode, hfold]
    rfl
  · intro path hpath
    obtain hold | hnew := hadded path hpath
    · obtain hnil | ⟨other, hother, hleading⟩ := hinserted.covered path hold
      · exact Or.inl hnil
      · exact Or.inr ⟨other, mem_append_left _ hother, hleading⟩
    · exact Or.inr ⟨entry, mem_append_right _ (mem_singleton_self entry), hnew⟩
  · intro other hother
    obtain hold | hnew := mem_append.mp hother
    · obtain ⟨hpath, hsymbol⟩ := hinserted.placed other hold
      have hne : other.1.bits ≠ entry.1.bits := by
        intro heq
        apply (hapart other hold).1
        rw [heq]
      exact ⟨hkept _ hpath, by rw [update_of_ne hne, hsymbol]⟩
    · rw [mem_singleton.mp hnew]
      exact ⟨hmem, update_self ..⟩
  · intro path hsome
    by_cases heq : path = entry.1.bits
    · exact ⟨entry, mem_append_right _ (mem_singleton_self entry), heq⟩
    · rw [update_of_ne heq] at hsome
      obtain ⟨other, hother, hpath⟩ := hinserted.named path hsome
      exact ⟨other, mem_append_left _ hother, hpath⟩
  · rw [length_append, length_singleton, hmax]
    omega

theorem foldlM_insertCode (rest done : List (Code × ℕ)) (hinserted : Inserted paths symbolOf done)
    (hcount : done.length + rest.length ≤ 256)
    (hrest : ∀ entry ∈ rest, entry.1.bits ≠ [] ∧ Binary entry.1.bits ∧
      entry.1.bits.length ≤ maxCodeBits)
    (hapart : (done ++ rest).Pairwise Apart) :
    ∃ extended symbolOf', rest.foldlM insertCode (trieOf paths symbolOf) =
        .ok (trieOf extended symbolOf') ∧ Inserted extended symbolOf' (done ++ rest) := by
  induction rest generalizing done paths symbolOf with
  | nil =>
    refine ⟨paths, symbolOf, rfl, ?_⟩
    rwa [append_nil]
  | cons entry rest ih =>
    obtain ⟨⟨hnonempty, hbinary, hlength⟩, hrest⟩ := forall_mem_cons.mp hrest
    rw [length_cons] at hcount
    have hbefore : ∀ other ∈ done, Apart other entry := fun other hother =>
      (pairwise_append.mp hapart).2.2 other hother entry mem_cons_self
    obtain ⟨middle, symbolOf', hinsert, hmiddle⟩ :=
      insertCode_step hinserted (by omega) hnonempty hbinary hlength hbefore
    have hshift : done ++ entry :: rest = done ++ [entry] ++ rest := by
      rw [append_assoc]
      rfl
    rw [hshift] at hapart ⊢
    obtain ⟨extended, final, hfold, hfinal⟩ := ih (done ++ [entry]) hmiddle (by
      rw [length_append, length_singleton]
      omega) hrest hapart
    refine ⟨extended, final, ?_, hfinal⟩
    rw [foldlM_cons, hinsert, ok_bind, hfold]

/-- What a trie has to have for the codes to be found in it. -/
structure Decodes (paths : List (List ℕ)) (symbolOf : List ℕ → Option ℕ) (codes : List Code) :
    Prop where
  isTrie : IsTrie paths
  placed : ∀ symbol, codeBits codes symbol ≠ [] →
    codeBits codes symbol ∈ paths ∧ symbolOf (codeBits codes symbol) = some symbol
  unnamed : ∀ symbol leading, leading <+: codeBits codes symbol →
    leading ≠ codeBits codes symbol → symbolOf leading = none

theorem buildTrie_eq {codes : List Code} (hcodes : IsPrefixCode codes) :
    ∃ paths symbolOf, buildTrie codes = .ok (trieOf paths symbolOf) ∧
      Decodes paths symbolOf codes := by
  set entries := codes.zipIdx.filter fun entry => entry.1.bits ≠ [] with hentriesEq
  have hmem : ∀ entry, entry ∈ entries ↔ codes[entry.2]? = some entry.1 ∧ entry.1.bits ≠ [] := by
    intro entry
    rw [mem_filter, decide_eq_true_eq]
    exact and_congr_left fun _ => mem_zipIdx_iff_getElem?
  have hbits : ∀ entry ∈ entries, codeBits codes entry.2 = entry.1.bits := by
    intro entry hentry
    simp [codeBits, ((hmem entry).mp hentry).1]
  have hcount : entries.length ≤ 256 := by
    have hle := length_filter_le (fun entry : Code × ℕ => decide (entry.1.bits ≠ []))
      codes.zipIdx
    rwa [length_zipIdx, hcodes.length_eq] at hle
  have hdistinct : entries.Pairwise fun left right => left.2 ≠ right.2 := by
    have hall : codes.zipIdx.Pairwise fun left right => left.2 ≠ right.2 := by
      apply pairwise_map.mp
      rw [zipIdx_map_snd]
      exact nodup_range'
    exact hall.filter _
  have hapart : ([] ++ entries).Pairwise Apart := by
    apply hdistinct.imp_of_mem
    intro left right hleft hright hne
    rw [Apart, ← hbits left hleft, ← hbits right hright]
    refine ⟨hcodes.prefixFree _ _ hne ?_, hcodes.prefixFree _ _ hne.symm ?_⟩
    · rw [hbits left hleft]
      exact ((hmem left).mp hleft).2
    · rw [hbits right hright]
      exact ((hmem right).mp hright).2
  have hempty : Inserted [[]] (fun _ => none) [] := by
    refine ⟨⟨nodup_singleton _, rfl, ?_⟩, ?_, by simp, by simp, by simp⟩
    · intro path bit hpath
      exact absurd (mem_singleton.mp hpath) (by simp)
    · intro path hpath
      exact Or.inl (mem_singleton.mp hpath)
  obtain ⟨paths, symbolOf, hfold, hinserted⟩ := foldlM_insertCode entries [] hempty
    (by simpa using hcount) (by
      intro entry hentry
      refine ⟨((hmem entry).mp hentry).2, ?_, ?_⟩
      · rw [← hbits entry hentry]
        exact hcodes.binary _
      · rw [← hbits entry hentry]
        exact hcodes.length_le _) hapart
  refine ⟨paths, symbolOf, hfold, hinserted.isTrie, ?_, ?_⟩
  · intro symbol hnonempty
    cases hget : codes[symbol]? with
    | none =>
      rw [codeBits, getD_eq_getElem?_getD, hget] at hnonempty
      exact absurd rfl hnonempty
    | some code =>
      have heq : codeBits codes symbol = code.bits := by
        simp [codeBits, hget]
      rw [heq] at hnonempty ⊢
      exact hinserted.placed (code, symbol) ((hmem _).mpr ⟨hget, hnonempty⟩)
  · intro symbol leading hleading hne
    by_contra hsome
    obtain ⟨entry, hentry, rfl⟩ := hinserted.named leading hsome
    rw [← hbits entry hentry] at hleading hne
    have hother : entry.2 ≠ symbol := by
      rintro rfl
      exact hne rfl
    apply hcodes.prefixFree _ _ hother _ hleading
    rw [hbits entry hentry]
    exact ((hmem entry).mp hentry).2

end Tritium.Entropy

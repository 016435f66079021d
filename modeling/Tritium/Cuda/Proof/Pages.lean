import Tritium.Cuda.Pages

/-!
# No page is lost or mapped twice

The free pages and the mapped entries of the table are the pages of the pool, whatever is reserved
and released, and the mapped entries of a row come before the unmapped ones.
-/

namespace Tritium.Cuda

open List Stateful

def heldPages (entries : List ℤ) : ℕ := (entries.takeWhile (0 ≤ ·)).length

/-- The table holds the given rows, and the pages they map together with the free ones are the pages
of the pool. -/
structure BatchPages.Conserves (n maxCtx count : ℕ) (rows : List (List ℤ)) (pages : BatchPages) :
    Prop where
  tstride_eq : pages.tstride = maxCtx ⌈/⌉ kvPageTokens
  table_eq : pages.table = rows.flatten
  count_eq : rows.length = n
  length_eq : ∀ entries ∈ rows, entries.length = pages.tstride
  perm : (pages.free ++ pages.table.filter (0 ≤ ·)).Perm ((range count).map Int.ofNat)
  mapped_first : ∀ entries ∈ rows, entries.filter (0 ≤ ·) = entries.takeWhile (0 ≤ ·)

variable {n maxCtx count row : ℕ} {rows : List (List ℤ)} {pages : BatchPages}

theorem drawPages_eq (delta : ℕ) (slots free : List ℤ) (hfree : delta ≤ free.length)
    (hslots : delta ≤ slots.length) :
    drawPages delta slots free =
      .ok (free.reverse.take delta ++ slots.drop delta, (free.reverse.drop delta).reverse) := by
  induction delta generalizing slots free with
  | zero => simp [drawPages]
  | succ delta ih =>
    obtain rfl | ⟨free, page, rfl⟩ := eq_nil_or_concat' free
    · simp at hfree
    cases slots with
    | nil => simp at hslots
    | cons slot slots =>
      rw [length_append, length_singleton, Nat.add_le_add_iff_right] at hfree
      rw [drawPages, getLast?_concat, expect_some, ok_bind, dropLast_concat,
        ih _ _ hfree (Nat.le_of_succ_le_succ hslots), ok_bind, reverse_append]
      rfl

theorem foldl_unmapEntry (entries kept free : List ℤ) :
    entries.foldl unmapEntry (kept, free) =
      (kept ++ entries.map (fun entry => if 0 ≤ entry then -1 else entry),
        free ++ entries.filter (0 ≤ ·)) := by
  induction entries generalizing kept free with
  | nil => simp
  | cons entry entries ih =>
    rw [foldl_cons, unmapEntry]
    by_cases hmapped : 0 ≤ entry
    · simp [hmapped, ih]
    · simp [hmapped, ih]

theorem mapped_append (mapped unmapped : List ℤ) (hmapped : ∀ entry ∈ mapped, 0 ≤ entry)
    (hunmapped : ∀ entry ∈ unmapped, ¬0 ≤ entry) :
    (mapped ++ unmapped).filter (0 ≤ ·) = mapped ∧
      (mapped ++ unmapped).takeWhile (0 ≤ ·) = mapped := by
  constructor
  · rw [filter_append, filter_eq_self.mpr (by simpa using hmapped),
      filter_eq_nil_iff.mpr (by simpa using hunmapped), append_nil]
  · rw [takeWhile_append_of_pos (by simpa using hmapped)]
    cases unmapped with
    | nil => simp
    | cons entry unmapped =>
      rw [takeWhile_cons_of_neg (by simpa using hunmapped entry mem_cons_self), append_nil]

namespace BatchPages.Conserves

variable {before after : List (List ℤ)} {entries : List ℤ}
  (hpages : pages.Conserves n maxCtx count (before ++ entries :: after))

include hpages

theorem start_eq : before.flatten.length = before.length * pages.tstride := by
  rw [← flatMap_id']
  exact length_flatMap_const before fun row hrow => hpages.length_eq row (mem_append_left _ hrow)

theorem row_length : entries.length = pages.tstride :=
  hpages.length_eq entries (mem_append_right _ mem_cons_self)

theorem table_split : pages.table = before.flatten ++ entries ++ after.flatten := by
  simp [hpages.table_eq]

theorem slice_row : (slice pages.table (before.length * pages.tstride)
    (before.length * pages.tstride + pages.tstride) : Outcome BackendError (List ℤ)) =
      .ok entries := by
  rw [slice_eq_ok_iff]
  exact subslice_of_split hpages.table_split hpages.start_eq (by rw [hpages.row_length])

/-- A row gets other entries, which exchange pages with the free ones only. -/
theorem setRow (entries' free : List ℤ) (hlength : entries'.length = pages.tstride)
    (hperm : (free ++ entries'.filter (0 ≤ ·)).Perm (pages.free ++ entries.filter (0 ≤ ·)))
    (hfirst : entries'.filter (0 ≤ ·) = entries'.takeWhile (0 ≤ ·)) :
    (pages.setRow before.length entries' free).Conserves n maxCtx count
      (before ++ entries' :: after) := by
  have hstop : (before.flatten ++ entries).length =
      before.length * pages.tstride + pages.tstride := by
    rw [length_append, hpages.start_eq, hpages.row_length]
  have htable : (pages.setRow before.length entries' free).table =
      before.flatten ++ entries' ++ after.flatten := by
    rw [BatchPages.setRow, hpages.table_split]
    dsimp only
    rw [drop_left' hstop, append_assoc before.flatten entries, take_left' hpages.start_eq]
  have hrows := forall_mem_append.mp hpages.length_eq
  have hmapped := forall_mem_append.mp hpages.mapped_first
  refine ⟨hpages.tstride_eq, ?_, ?_, ?_, ?_, ?_⟩
  · simp [htable]
  · simp [← hpages.count_eq]
  · exact forall_mem_append.mpr ⟨hrows.1, forall_mem_cons.mpr ⟨hlength, (forall_mem_cons.mp hrows.2).2⟩⟩
  · refine Perm.trans ?_ hpages.perm
    have hmoved := hperm.append_right
      (before.flatten.filter (0 ≤ ·) ++ after.flatten.filter (0 ≤ ·))
    rw [append_assoc, append_assoc] at hmoved
    rw [htable, hpages.table_split]
    simp only [filter_append, append_assoc]
    exact ((perm_append_comm_assoc _ _ _).append_left _).trans
      (hmoved.trans ((perm_append_comm_assoc _ _ _).append_left _))
  · exact forall_mem_append.mpr
      ⟨hmapped.1, forall_mem_cons.mpr ⟨hfirst, (forall_mem_cons.mp hmapped.2).2⟩⟩

/-- Enough free pages are drawn, so the row holds what was asked for. -/
theorem draw {need : ℕ} (hneed : need ≤ pages.tstride)
    (hfree : need - heldPages entries ≤ pages.free.length) :
    ∃ drawn free, drawPages (need - heldPages entries) (entries.drop (heldPages entries)) pages.free =
        .ok (drawn, free) ∧
      (pages.setRow before.length (entries.take (heldPages entries) ++ drawn) free).Conserves n maxCtx
        count (before ++ (entries.take (heldPages entries) ++ drawn) :: after) ∧
      heldPages (entries.take (heldPages entries) ++ drawn) = max (heldPages entries) need := by
  have hlength := hpages.row_length
  have hfirst := hpages.mapped_first entries (mem_append_right _ mem_cons_self)
  -- the row is its mapped entries followed by the unmapped ones
  obtain ⟨unmapped, hentries⟩ := takeWhile_prefix (p := (0 ≤ ·)) (l := entries)
  generalize hmapped : entries.takeWhile (0 ≤ ·) = mapped at *
  have hheld : heldPages entries = mapped.length := congrArg length hmapped
  generalize hdelta : need - heldPages entries = delta at *
  rw [← hentries, length_append] at hlength
  rw [hheld, ← hentries, take_left, drop_left]
  have hold : ∀ entry ∈ mapped, 0 ≤ entry := by simp [← hfirst]
  have hunmapped : ∀ entry ∈ unmapped, ¬0 ≤ entry := by
    rw [← hentries, filter_append, filter_eq_self.mpr (by simpa using hold),
      append_right_eq_self, filter_eq_nil_iff] at hfirst
    simpa using hfirst
  have hpage : ∀ entry ∈ pages.free, 0 ≤ entry := by
    intro entry hentry
    obtain ⟨page, -, rfl⟩ := mem_map.mp (hpages.perm.subset (mem_append_left _ hentry))
    simp
  have hdrawn : ∀ entry ∈ mapped ++ pages.free.reverse.take delta, 0 ≤ entry :=
    forall_mem_append.mpr
      ⟨hold, fun entry hentry => hpage entry (mem_reverse.mp (mem_of_mem_take hentry))⟩
  obtain ⟨hfilter, htakeWhile⟩ := mapped_append _ (unmapped.drop delta) hdrawn
    fun entry hentry => hunmapped entry (mem_of_mem_drop hentry)
  refine ⟨_, _, drawPages_eq _ _ _ hfree (by omega), ?_, ?_⟩ <;> rw [← append_assoc]
  · refine hpages.setRow _ _ ?_ ?_ (hfilter.trans htakeWhile.symm)
    · simp only [length_append, length_take, length_reverse, length_drop]
      omega
    · rw [hfilter, hfirst]
      refine (perm_append_comm_assoc _ _ _).trans (Perm.trans ?_ perm_append_comm)
      refine Perm.append_left _ (((reverse_perm _).append_right _).trans (perm_append_comm.trans ?_))
      rw [take_append_drop]
      exact reverse_perm _
  · rw [heldPages, htakeWhile, length_append, length_take, length_reverse]
    omega

theorem unmap :
    (pages.setRow before.length (entries.foldl unmapEntry ([], pages.free)).1
      (entries.foldl unmapEntry ([], pages.free)).2).Conserves n maxCtx count
        (before ++ (entries.foldl unmapEntry ([], pages.free)).1 :: after) ∧
      heldPages (entries.foldl unmapEntry ([], pages.free)).1 = 0 := by
  have hunmapped : ∀ entry ∈ entries.map fun entry => if 0 ≤ entry then -1 else entry,
      ¬0 ≤ entry := by
    intro entry hentry
    obtain ⟨old, -, rfl⟩ := mem_map.mp hentry
    split_ifs with hold
    · decide
    · exact hold
  obtain ⟨hfilter, htakeWhile⟩ := mapped_append [] _ (by simp) hunmapped
  rw [nil_append] at hfilter htakeWhile
  rw [foldl_unmapEntry, nil_append]
  exact ⟨hpages.setRow _ _ (by rw [length_map, hpages.row_length]) (by rw [hfilter, append_nil])
    (hfilter.trans htakeWhile.symm), by rw [heldPages, htakeWhile, length_nil]⟩

end BatchPages.Conserves

/-- What the row of a call holds once the call succeeded. -/
def PageCall.Done (rows rows' : List (List ℤ)) : PageCall → Prop
  | .reserve row tokens =>
    heldPages (rows'.getD row []) = max (heldPages (rows.getD row [])) (tokens ⌈/⌉ kvPageTokens)
  | .release row => heldPages (rows'.getD row []) = 0

theorem PageCall.run_cases (hpages : pages.Conserves n maxCtx count rows) (call : PageCall) :
    (∃ pages' rows', call.run ⟨n, maxCtx, some pages⟩ = (.ok (), ⟨n, maxCtx, some pages'⟩) ∧
      pages'.Conserves n maxCtx count rows' ∧ call.Done rows rows') ∨
    ∃ error, call.run ⟨n, maxCtx, some pages⟩ = (.err error, ⟨n, maxCtx, some pages⟩) := by
  have hsplit : ∀ row < n, ∃ before entries after, rows = before ++ entries :: after ∧
      before.length = row := by
    intro row hrow
    rw [← hpages.count_eq] at hrow
    exact ⟨_, _, _, (take_append_drop row rows).symm.trans
      (congrArg _ (drop_eq_getElem_cons hrow)), length_take_of_le hrow.le⟩
  cases call with
  | reserve row tokens =>
    rw [run, reservePages, current_bind]
    split_ifs with hrow htokens
    · exact .inr ⟨_, rfl⟩
    · exact .inr ⟨_, rfl⟩
    obtain ⟨before, entries, after, rfl, rfl⟩ := hsplit row (Nat.lt_of_not_ge hrow)
    dsimp only
    rw [hpages.slice_row, lift_ok_bind, ← heldPages]
    split_ifs with hfree
    · exact .inr ⟨_, rfl⟩
    have hneed : tokens ⌈/⌉ kvPageTokens ≤ pages.tstride := by
      rw [hpages.tstride_eq]
      exact (gc_mul_ceilDiv (by decide)).monotone_l (Nat.le_of_not_lt htokens)
    obtain ⟨drawn, free, hdraw, hkept, hheld⟩ := hpages.draw hneed (Nat.le_of_not_lt hfree)
    rw [hdraw, lift_ok_bind]
    exact .inl ⟨_, _, rfl, hkept, by simpa [Done] using hheld⟩
  | release row =>
    rw [run, releasePages, current_bind]
    split_ifs with hrow
    · exact .inr ⟨_, rfl⟩
    obtain ⟨before, entries, after, rfl, rfl⟩ := hsplit row (Nat.lt_of_not_ge hrow)
    dsimp only
    rw [hpages.slice_row, lift_ok_bind]
    exact .inl ⟨_, _, rfl, hpages.unmap.1, by simpa [Done] using hpages.unmap.2⟩

/-- **No page is lost or mapped twice.** -/
theorem PageCall.reached_conserves (n maxCtx count : ℕ) {free : List ℤ}
    (hfree : free.Perm ((range count).map Int.ofNat)) (calls : List PageCall) :
    ∃ pages rows, reached PageCall.run calls (.newPaged n maxCtx free) = ⟨n, maxCtx, some pages⟩ ∧
      pages.Conserves n maxCtx count rows ∧ ∀ call : PageCall,
        (∃ pages' rows', call.run ⟨n, maxCtx, some pages⟩ = (.ok (), ⟨n, maxCtx, some pages'⟩) ∧
          pages'.Conserves n maxCtx count rows' ∧ call.Done rows rows') ∨
        ∃ error, call.run ⟨n, maxCtx, some pages⟩ = (.err error, ⟨n, maxCtx, some pages⟩) := by
  have hrun : ∃ pages rows, reached PageCall.run calls (.newPaged n maxCtx free) =
      ⟨n, maxCtx, some pages⟩ ∧ pages.Conserves n maxCtx count rows := by
    induction calls using reverseRecOn with
    | nil =>
      refine ⟨_, replicate n (replicate (maxCtx ⌈/⌉ kvPageTokens) (-1)), rfl, rfl, ?_,
        length_replicate, ?_, by simpa using hfree, ?_⟩ <;> simp [flatten_replicate_replicate]
    | append_singleton calls call ih =>
      obtain ⟨pages, rows, hreached, hpages⟩ := ih
      rw [reached, foldl_concat, ← reached, hreached]
      obtain ⟨pages', rows', hcall, hkept, -⟩ | ⟨error, hcall⟩ := call.run_cases hpages
      · exact ⟨pages', rows', by rw [hcall], hkept⟩
      · exact ⟨pages, rows, by rw [hcall], hpages⟩
  obtain ⟨pages, rows, hreached, hpages⟩ := hrun
  exact ⟨pages, rows, hreached, hpages, PageCall.run_cases hpages⟩

theorem PageCall.reached_conserves_sample : ∃ pages : BatchPages, ∃ rows,
    reached PageCall.run [.reserve 1 300, .reserve 0 600, .release 1, .reserve 0 600]
      (.newPaged 2 600 [2, 1, 0]) = ⟨2, 600, some pages⟩ ∧ pages.Conserves 2 600 3 rows := by
  obtain ⟨pages, rows, hreached, hpages, -⟩ := PageCall.reached_conserves 2 600 3
    (by decide : [2, 1, 0].Perm ((range 3).map Int.ofNat)) _
  exact ⟨pages, rows, hreached, hpages⟩

end Tritium.Cuda

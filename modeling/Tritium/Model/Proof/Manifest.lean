import Tritium.Lib.Ancestry
import Tritium.Model.Manifest

/-!
# Ancestry of the levels

A manifest that passes the other checks is accepted exactly when the links of every level lead to a
level that is no prefix. The walk may take as many links as there are levels, and it never needs
them all.
-/

namespace Tritium.Model.ModelManifest

open List

variable {ε : Type} {checkLayout : AdditiveLayout → Outcome ε Unit} {manifest : ModelManifest}
  {level : Level}

/-- The declared level that a level is a prefix of. -/
def link (levels : List Level) (level : Level) : Option Level :=
  match level.fit with
  | .importedPrefixOf parent => levels.find? (·.name = parent)
  | _ => none

/-- The links of a level lead, within `steps` of them, to a declared level that is no prefix. -/
def GroundedIn (levels : List Level) (steps : ℕ) (level : Level) : Prop :=
  ∃ ancestor, climb (link levels) steps level = some ancestor ∧
    ∀ parent, ancestor.fit ≠ .importedPrefixOf parent

theorem checkInventory_sorted (hcheck : manifest.checkInventory = (.ok () : Check ε Unit)) :
    (manifest.levels.map (·.name)).Pairwise fun left right => compare left right = .lt := by
  obtain ⟨_, hcheck⟩ := refuse_eq_ok hcheck
  obtain ⟨_, _, hcheck⟩ := bind_eq_ok hcheck
  obtain ⟨_, _, hcheck⟩ := bind_eq_ok hcheck
  obtain ⟨_, hlevels, _⟩ := bind_eq_ok hcheck
  obtain ⟨hneighbours, _⟩ := refuse_eq_ok hlevels
  rw [Bool.not_eq_true, neighboursAny_eq_false_iff] at hneighbours
  exact pairwise_lt_of_isChain compare (hneighbours.imp fun _ _ hlt => by simpa using hlt)

theorem validateWith_eq_ok_iff {checkAncestors : Level → Check ε Unit} :
    manifest.validateWith checkLayout checkAncestors = .ok () ↔
      manifest.validateWith checkLayout (fun _ => .ok ()) = .ok () ∧
        ∀ level ∈ manifest.levels, checkAncestors level = .ok () := by
  simp only [validateWith, unit_bind_eq_ok_iff, forM_eq_ok_iff, and_true, forall_and]
  tauto

section Sorted

variable (hsorted : (manifest.levels.map (·.name)).Pairwise fun left right =>
  compare left right = .lt)

include hsorted

theorem levelNamed_eq_some_iff {parent : String} {index : ℕ} :
    manifest.levelNamed parent = some index ↔
      manifest.levels[index]?.map (·.name) = some parent := by
  rw [levelNamed, binarySearchBy_eq_some_iff]
  · simp
  · refine (pairwise_map.mp hsorted).imp fun {left right} hlt hge => ?_
    rw [Std.OrientedCmp.gt_iff_lt]
    have hle := Ordering.isLE_iff_ne_gt.mpr fun hgt => hge (Std.OrientedCmp.gt_iff_lt.mp hgt)
    exact Std.TransCmp.lt_of_isLE_of_lt hle hlt

theorem find?_name_eq (parent : String) : manifest.levels.find? (·.name = parent) =
    (manifest.levelNamed parent).bind (manifest.levels[·]?) := by
  rcases hfind : manifest.levels.find? (·.name = parent) with _ | found
  · rcases hnamed : manifest.levelNamed parent with _ | index
    · exact hfind
    · obtain ⟨level, hlevel, hname⟩ :=
        Option.map_eq_some_iff.mp ((levelNamed_eq_some_iff hsorted).mp hnamed)
      simpa [hname] using find?_eq_none.mp hfind level (mem_of_getElem? hlevel)
  · obtain ⟨index, hindex⟩ := getElem?_of_mem (mem_of_find?_eq_some hfind)
    have hname : manifest.levelNamed parent = some index := by
      rw [levelNamed_eq_some_iff hsorted, hindex]
      simpa using find?_some hfind
    rw [hfind, hname, Option.bind_some, hindex]

/-- The walk accepts what is grounded within the links it may take. -/
theorem ancestors_eq_ok_iff (left : ℕ) (level : Level) :
    manifest.ancestors left level = (.ok () : Check ε Unit) ↔
      ∃ steps ≤ left, GroundedIn manifest.levels steps level := by
  induction left generalizing level with
  | zero =>
    simp only [nonpos_iff_eq_zero, exists_eq_left, GroundedIn, climb, Option.some.injEq,
      exists_eq_left']
    rcases hfit : level.fit with _ | parent | _ <;> simp [ancestors, hfit]
  | succ left ih =>
    by_cases hprefix : ∃ parent, level.fit = .importedPrefixOf parent
    · obtain ⟨parent, hfit⟩ := hprefix
      have hstep : manifest.ancestors (left + 1) level = (.ok () : Check ε Unit) ↔
          ∃ next, link manifest.levels level = some next ∧
            manifest.ancestors left next = (.ok () : Check ε Unit) := by
        rw [ancestors, link, hfit]
        simp only [bind_eq_ok_iff, okOr_eq_ok_iff, index_eq_ok_iff, find?_name_eq hsorted,
          Option.bind_eq_some_iff]
        tauto
      simp only [hstep, ih]
      constructor
      · rintro ⟨next, hnext, steps, hle, ancestor, hclimb, hroot⟩
        exact ⟨steps + 1, by omega, ancestor, by rw [climb, hnext]; exact hclimb, hroot⟩
      · rintro ⟨_ | steps, _, ancestor, hclimb, hroot⟩
        · obtain rfl := Option.some.inj hclimb
          exact absurd hfit (hroot parent)
        · obtain ⟨next, hnext, hclimb⟩ := Option.bind_eq_some_iff.mp hclimb
          exact ⟨next, hnext, steps, by omega, ancestor, hclimb, hroot⟩
    · refine iff_of_true ?_ ⟨0, Nat.zero_le _, level, rfl, not_exists.mp hprefix⟩
      rw [ancestors]
      split
      next parent hfit => exact absurd ⟨parent, hfit⟩ hprefix
      next => rfl

theorem ancestors_ok_or_err (left : ℕ) (level : Level) :
    manifest.ancestors left level = (.ok () : Check ε Unit) ∨
      manifest.ancestors left level = (.err .invalidPrefix : Check ε Unit) := by
  fun_induction manifest.ancestors (ε := ε) left level with
  | case1 => exact .inr rfl
  | case2 level parent hfit left ih =>
    rcases hnamed : manifest.levelNamed parent with _ | index
    · exact .inr rfl
    · obtain ⟨next, hnext, _⟩ :=
        Option.map_eq_some_iff.mp ((levelNamed_eq_some_iff hsorted).mp hnamed)
      rw [okOr_some, ok_bind, index_eq_ok_iff.mpr hnext]
      exact ih next
  | case3 => exact .inl rfl

/-- A manifest that passes the other checks is refused for its ancestry alone. -/
theorem validate_ok_or_err
    (hothers : manifest.validateWith checkLayout (fun _ => .ok ()) = .ok ()) :
    manifest.validate checkLayout = .ok () ∨
      manifest.validate checkLayout = .err .invalidPrefix := by
  simp only [validateWith, unit_bind_eq_ok_iff, forM_eq_ok_iff] at hothers
  obtain ⟨hinventory, hlevels, hlegacy⟩ := hothers
  have hwalks := @forM_ok_or_err _ _ manifest.levels
    (fun level => do
      manifest.checkLevel checkLayout level
      manifest.ancestors manifest.levels.length level) .invalidPrefix fun level hlevel => by
    rw [(hlevels level hlevel).1]
    exact ancestors_ok_or_err hsorted _ level
  rw [validate, validateWith, hinventory, ok_bind]
  obtain hwalks | hwalks := hwalks
  · rw [hwalks]
    exact .inl (forM_eq_ok_iff.mpr fun legacy hmem => unit_bind_eq_ok_iff.mpr (hlegacy legacy hmem))
  · rw [hwalks]
    exact .inr rfl

end Sorted

theorem climb_link_mem (hlevel : level ∈ manifest.levels) {steps : ℕ} {ancestor : Level}
    (hclimb : climb (link manifest.levels) steps level = some ancestor) :
    ancestor ∈ manifest.levels := by
  induction steps generalizing level with
  | zero =>
    obtain rfl := Option.some.inj hclimb
    exact hlevel
  | succ steps ih =>
    obtain ⟨next, hnext, hclimb⟩ := Option.bind_eq_some_iff.mp hclimb
    refine ih ?_ hclimb
    rw [link] at hnext
    split at hnext
    · exact mem_of_find?_eq_some hnext
    · cases hnext

theorem link_eq_none (hroot : ∀ parent, level.fit ≠ .importedPrefixOf parent) :
    link manifest.levels level = none := by
  rw [link]
  split
  next parent hfit => exact absurd hfit (hroot parent)
  next => rfl

/-- **Ancestry is exactly acyclicity.** A manifest is accepted when it passes the other checks and
the links of every level end at one that is no prefix. One that passes the other checks is else
refused for its ancestry: a circle of links that any level leads to, for one. Names are then found
where they stand. -/
theorem validate_eq_ok_iff (checkLayout : AdditiveLayout → Outcome ε Unit)
    (manifest : ModelManifest) :
    (manifest.validate checkLayout = .ok () ↔
      manifest.validateWith checkLayout (fun _ => .ok ()) = .ok () ∧
        ∀ level ∈ manifest.levels, ∃ steps, GroundedIn manifest.levels steps level) ∧
    (manifest.validateWith checkLayout (fun _ => .ok ()) = .ok () →
      (∀ name index, manifest.levelNamed name = some index ↔
        manifest.levels[index]?.map (·.name) = some name) ∧
      (manifest.validate checkLayout = .ok () ∨
        manifest.validate checkLayout = .err .invalidPrefix) ∧
      ∀ level ∈ manifest.levels, ∀ steps round ancestor,
        climb (link manifest.levels) steps level = some ancestor → 0 < round →
        climb (link manifest.levels) round ancestor = some ancestor →
        manifest.validate checkLayout = .err .invalidPrefix) := by
  have hnames (hothers : manifest.validateWith checkLayout (fun _ => .ok ()) = .ok ()) :=
    checkInventory_sorted (unit_bind_eq_ok_iff.mp hothers).1
  have hiff : manifest.validate checkLayout = .ok () ↔
      manifest.validateWith checkLayout (fun _ => .ok ()) = .ok () ∧
        ∀ level ∈ manifest.levels, ∃ steps, GroundedIn manifest.levels steps level := by
    rw [validate, validateWith_eq_ok_iff]
    refine and_congr_right fun hothers => forall₂_congr fun level hlevel => ?_
    rw [ancestors_eq_ok_iff (hnames hothers)]
    refine exists_congr fun steps => and_iff_right_of_imp ?_
    rintro ⟨ancestor, hclimb, hroot⟩
    exact (steps_lt_length (fun _ _ => climb_link_mem hlevel) hclimb (link_eq_none hroot)).le
  refine ⟨hiff, fun hothers => ?_⟩
  have hresult := validate_ok_or_err (hnames hothers) hothers
  refine ⟨fun _ _ => levelNamed_eq_some_iff (hnames hothers), hresult, ?_⟩
  intro level hlevel first round ancestor hfirst hround hcycle
  refine hresult.resolve_left fun hvalid => ?_
  obtain ⟨steps, root, hclimb, hroot⟩ := (hiff.mp hvalid).2 level hlevel
  exact not_cycle_of_root hclimb (link_eq_none hroot) hfirst hround hcycle

end Tritium.Model.ModelManifest

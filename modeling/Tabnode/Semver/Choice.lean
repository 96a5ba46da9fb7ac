import Tabnode.Semver.Comparison
import Tabnode.Semver.Satisfies

/-!
# The best version of a range

`findBestVersion` finds a version whenever a listed one satisfies the range. That none
exceeds it holds, whatever the platform's sort does with a comparator that is not
consistent, exactly where the comparator has the listed versions in their order and no text
that is no version comes between two of them the wrong way round (`choosesBest_iff`).
-/

namespace Tabnode

namespace Semver

open VirtualFS

variable (localeCompare : Str → Str → Ordering)

def IsSemVer (text : Str) : Prop := ∃ v : SemVer, v.text = text

/-- One version string exceeds another: by precedence, and by the comparator where one of
them is not of the grammar. -/
def Exceeds (w v : Str) : Prop :=
  (∃ a b : SemVer, a.text = w ∧ b.text = v ∧ precedence a b = .gt) ∨
    ¬ (IsSemVer w ∧ IsSemVer v) ∧ compareVersions localeCompare w v = .gt

/-- The comparator orders the listed version strings by precedence, and the best version is
none where no listed one satisfies the range, else a listed one that satisfies it and that
no other such exceeds; whatever sort the platform has. -/
structure ChoosesBest (versions : List Str) (range : Str) : Prop where
  order : ∀ v w : SemVer, v.text ∈ versions → w.text ∈ versions →
    compareVersions localeCompare v.text w.text = precedence v w
  preorder : Std.TransCmp fun v w : {v : SemVer // v.text ∈ versions} =>
    compareVersions localeCompare v.1.text w.1.text
  none_iff : ∀ sort, IsSort sort →
    (findBestVersion localeCompare sort (satisfies localeCompare · range) versions = none ↔
      ∀ v ∈ versions, satisfies localeCompare v range = false)
  best : ∀ sort, IsSort sort → ∀ v,
    findBestVersion localeCompare sort (satisfies localeCompare · range) versions = some v →
      v ∈ versions ∧ satisfies localeCompare v range = true ∧
        ∀ w ∈ versions, satisfies localeCompare w range = true → ¬ Exceeds localeCompare w v

/-- Wherever a listed text that is read as no version stands between two that are, by the
platform's order, the two are in that order as versions. -/
def InStep (versions : List Str) : Prop :=
  ∀ u ∈ versions, parseVersion u = none →
    ∀ a ∈ versions, ∀ b ∈ versions, ∀ p q, parseVersion a = some p → parseVersion b = some q →
      (localeCompare a u).isLE → (localeCompare u b).isLE →
        (compareParsed localeCompare p q).isLE ∧
          (compareParsed localeCompare p q = .eq →
            localeCompare a u = .eq ∧ localeCompare u b = .eq)

def Tied (versions : List Str) (range : Str) : Prop :=
  ∀ v ∈ versions, satisfies localeCompare v range = true →
    ∀ w ∈ versions, satisfies localeCompare w range = true →
      (compareVersions localeCompare w v).isLE

/-! ## The comparator on a list -/

variable {localeCompare}

instance [Std.TransCmp localeCompare] : Std.TransCmp (comparePrereleaseTexts localeCompare) where
  eq_swap {a b} := by
    cases a with
    | none => cases b <;> rfl
    | some a => cases b with
      | none => rfl
      | some b =>
        have hswap : localeCompare a b = (localeCompare b a).swap := Std.OrientedCmp.eq_swap
        exact hswap
  isLE_trans {a b c} hab hbc := by
    cases c with
    | none => cases a <;> rfl
    | some c => cases b with
      | none => cases hbc
      | some b => cases a with
        | none => cases hab
        | some a =>
          have htrans : (localeCompare a b).isLE → (localeCompare b c).isLE →
            (localeCompare a c).isLE := Std.TransCmp.isLE_trans
          exact htrans hab hbc

theorem compareParsed_eq_compareLex : compareParsed localeCompare =
    compareLex (compareOn ParsedVersion.major) (compareLex (compareOn ParsedVersion.minor)
      (compareLex (compareOn ParsedVersion.patch) fun a b =>
        comparePrereleaseTexts localeCompare a.prerelease b.prerelease)) := by
  funext a b
  rw [compareParsed, SemVer.ite_compare, SemVer.ite_compare, SemVer.ite_compare]
  rfl

instance [Std.TransCmp localeCompare] : Std.TransCmp (compareParsed localeCompare) := by
  rw [compareParsed_eq_compareLex]
  infer_instance

theorem compareVersions_of_parsed {a b : Str} {p q : ParsedVersion} (ha : parseVersion a = some p)
    (hb : parseVersion b = some q) :
    compareVersions localeCompare a b = compareParsed localeCompare p q := by
  rw [compareVersions, ha, hb]

theorem compareVersions_of_left {a : Str} (ha : parseVersion a = none) (b : Str) :
    compareVersions localeCompare a b = localeCompare a b := by
  rw [compareVersions, ha]

theorem compareVersions_of_right (a : Str) {b : Str} (hb : parseVersion b = none) :
    compareVersions localeCompare a b = localeCompare a b := by
  rw [compareVersions, hb]
  cases parseVersion a <;> rfl

theorem compareVersions_swap (h : Std.TransCmp localeCompare) (a b : Str) :
    compareVersions localeCompare a b = (compareVersions localeCompare b a).swap := by
  cases ha : parseVersion a with
  | none =>
    rw [compareVersions_of_left ha, compareVersions_of_right b ha]
    exact Std.OrientedCmp.eq_swap
  | some p => cases hb : parseVersion b with
    | none =>
      rw [compareVersions_of_right a hb, compareVersions_of_left hb]
      exact Std.OrientedCmp.eq_swap
    | some q =>
      rw [compareVersions_of_parsed ha hb, compareVersions_of_parsed hb ha]
      exact Std.OrientedCmp.eq_swap

theorem eq_of_isLE_swap {o : Ordering} (h : o.isLE) (h' : o.swap.isLE) : o = .eq := by
  cases o
  · cases h'
  · rfl
  · cases h

theorem swap_eq_lt_of_not_isLE {o : Ordering} (h : ¬ o.isLE) : o.swap = .lt := by
  cases o
  · exact absurd rfl h
  · exact absurd rfl h
  · rfl

/-- Two versions with a text before both, or behind both: were the text between them the
other way round, they would be equal with the text apart from one of them. -/
theorem InStep.not_between {versions : List Str} (h : Std.TransCmp localeCompare)
    (hstep : InStep localeCompare versions) {u a b : Str} {p q : ParsedVersion}
    (hu : u ∈ versions) (hnone : parseVersion u = none) (ha : a ∈ versions) (hb : b ∈ versions)
    (hp : parseVersion a = some p) (hq : parseVersion b = some q)
    (hle : (compareParsed localeCompare q p).isLE) (hau : (localeCompare a u).isLE)
    (hub : (localeCompare u b).isLE) : localeCompare a u = .eq ∧ localeCompare u b = .eq := by
  obtain ⟨hpq, heq⟩ := hstep u hu hnone a ha b hb p q hp hq hau hub
  have hswap : compareParsed localeCompare q p = (compareParsed localeCompare p q).swap :=
    Std.OrientedCmp.eq_swap
  exact heq (eq_of_isLE_swap hpq (hswap ▸ hle))

theorem isLE_trans_of_inStep {versions : List Str} (h : Std.TransCmp localeCompare)
    (hstep : InStep localeCompare versions) {a b c : Str} (ha : a ∈ versions)
    (hb : b ∈ versions) (hc : c ∈ versions) (hab : (compareVersions localeCompare a b).isLE)
    (hbc : (compareVersions localeCompare b c).isLE) :
    (compareVersions localeCompare a c).isLE := by
  have hswap (x y : Str) : localeCompare x y = (localeCompare y x).swap := Std.OrientedCmp.eq_swap
  have htrans {x y z : Str} : (localeCompare x y).isLE → (localeCompare y z).isLE →
      (localeCompare x z).isLE := Std.TransCmp.isLE_trans
  cases hpa : parseVersion a with
  | none =>
    rw [compareVersions_of_left hpa] at hab ⊢
    cases hpb : parseVersion b with
    | none =>
      rw [compareVersions_of_left hpb] at hbc
      exact htrans hab hbc
    | some q => cases hpc : parseVersion c with
      | none =>
        rw [compareVersions_of_right b hpc] at hbc
        exact htrans hab hbc
      | some r =>
        by_contra hac
        have hca : localeCompare c a = .lt := hswap c a ▸ swap_eq_lt_of_not_isLE hac
        rw [compareVersions_of_parsed hpb hpc] at hbc
        have heq := hstep.not_between h ha hpa hc hb hpc hpb hbc (by rw [hca]; rfl) hab
        rw [hca] at heq
        cases heq.1
  | some p => cases hpb : parseVersion b with
    | none =>
      rw [compareVersions_of_right a hpb] at hab
      rw [compareVersions_of_left hpb] at hbc
      cases hpc : parseVersion c with
      | none =>
        rw [compareVersions_of_right a hpc]
        exact htrans hab hbc
      | some r =>
        rw [compareVersions_of_parsed hpa hpc]
        exact (hstep b hb hpb a ha c hc p r hpa hpc hab hbc).1
    | some q =>
      rw [compareVersions_of_parsed hpa hpb] at hab
      cases hpc : parseVersion c with
      | none =>
        rw [compareVersions_of_right b hpc] at hbc
        rw [compareVersions_of_right a hpc]
        by_contra hac
        have hca : localeCompare c a = .lt := hswap c a ▸ swap_eq_lt_of_not_isLE hac
        have heq := hstep.not_between h hc hpc hb ha hpb hpa hab hbc (by rw [hca]; rfl)
        rw [hca] at heq
        cases heq.2
      | some r =>
        rw [compareVersions_of_parsed hpb hpc] at hbc
        rw [compareVersions_of_parsed hpa hpc]
        exact Std.TransCmp.isLE_trans hab hbc

theorem inStep_of_isLE_trans {versions : List Str} (h : Std.TransCmp localeCompare)
    (htrans : ∀ a ∈ versions, ∀ b ∈ versions, ∀ c ∈ versions,
      (compareVersions localeCompare a b).isLE → (compareVersions localeCompare b c).isLE →
        (compareVersions localeCompare a c).isLE) : InStep localeCompare versions := by
  intro u hu hnone a ha b hb p q hp hq hau hub
  have hright : compareVersions localeCompare a u = localeCompare a u :=
    compareVersions_of_right a hnone
  have hleft : compareVersions localeCompare u b = localeCompare u b :=
    compareVersions_of_left hnone b
  rw [← hright] at hau ⊢
  rw [← hleft] at hub ⊢
  rw [← compareVersions_of_parsed hp hq]
  refine ⟨htrans a ha u hu b hb hau hub, fun heq => ?_⟩
  have hba : (compareVersions localeCompare b a).isLE := by
    rw [compareVersions_swap h, heq]
    rfl
  exact ⟨eq_of_isLE_swap hau (compareVersions_swap h u a ▸ htrans u hu b hb a ha hub hba),
    eq_of_isLE_swap hub (compareVersions_swap h b u ▸ htrans b hb a ha u hu hba hau)⟩

/-- The comparator of the sort is consistent on a list exactly when it is in step. -/
theorem consistent_iff_inStep (h : Std.TransCmp localeCompare) (versions : List Str) :
    Consistent (fun a b => compareVersions localeCompare b a) versions ↔
      InStep localeCompare versions := by
  constructor
  · intro hcmp
    exact inStep_of_isLE_trans h fun a ha b hb c hc hab hbc =>
      IsSort.trans_isLE hcmp ⟨c, hc⟩ ⟨b, hb⟩ ⟨a, ha⟩ hbc hab
  · intro hstep
    exact {
      eq_swap := compareVersions_swap h _ _
      isLE_trans := fun {a b c} hab hbc =>
        isLE_trans_of_inStep h hstep c.2 b.2 a.2 hbc hab }

/-! ## The best version -/

/-- Where the comparator has the listed versions in their order, one exceeds another
exactly by the comparator. -/
theorem exceeds_iff {versions : List Str}
    (horder : ∀ v w : SemVer, v.text ∈ versions → w.text ∈ versions →
      compareVersions localeCompare v.text w.text = precedence v w)
    {w v : Str} (hw : w ∈ versions) (hv : v ∈ versions) :
    Exceeds localeCompare w v ↔ ¬ (compareVersions localeCompare w v).isLE := by
  have hgt : ¬ (compareVersions localeCompare w v).isLE ↔
      compareVersions localeCompare w v = .gt := by
    cases compareVersions localeCompare w v <;> simp
  rw [hgt]
  constructor
  · rintro (⟨a, b, rfl, rfl, hab⟩ | ⟨-, hgt⟩)
    · rw [horder a b hw hv, hab]
    · exact hgt
  · intro h
    by_cases hboth : IsSemVer w ∧ IsSemVer v
    · obtain ⟨⟨a, rfl⟩, ⟨b, rfl⟩⟩ := hboth
      exact .inl ⟨a, b, rfl, rfl, horder a b hw hv ▸ h⟩
    · exact .inr ⟨hboth, h⟩

/-- The versions are in precedence and the best is chosen exactly where the comparator has
the listed version strings in their order, and it is in step on the list or need not be. -/
theorem choosesBest_iff (h : Collates localeCompare) (versions : List Str) (range : Str) :
    ChoosesBest localeCompare versions range ↔
      (∀ v w : SemVer, v.text ∈ versions → w.text ∈ versions → v.OrderKept w) ∧
        (InStep localeCompare versions ∨ Tied localeCompare versions range) := by
  have hleast := IsSort.find?_least_iff (fun a b => compareVersions localeCompare b a) versions
    (satisfies localeCompare · range)
  rw [consistent_iff_inStep h.total] at hleast
  constructor
  · intro hbest
    refine ⟨fun v w hv hw =>
      (SemVer.compareVersions_eq_precedence_iff h v w).1 (hbest.order v w hv hw), hleast.1 ?_⟩
    intro sort hsort v hfind w hw hsat
    obtain ⟨hv, -, hnot⟩ := hbest.best sort hsort v hfind
    by_contra hgt
    exact hnot w hw hsat ((exceeds_iff hbest.order hw hv).2 hgt)
  · rintro ⟨hkept, hcmp⟩
    have horder (v w : SemVer) (hv : v.text ∈ versions) (hw : w.text ∈ versions) :
        compareVersions localeCompare v.text w.text = precedence v w :=
      (SemVer.compareVersions_eq_precedence_iff h v w).2 (hkept v w hv hw)
    refine ⟨horder, ?_, fun sort hsort => hsort.find?_eq_none_iff _ _ _, ?_⟩
    · have heq : (fun v w : {v : SemVer // v.text ∈ versions} =>
          compareVersions localeCompare v.1.text w.1.text) = fun v w => precedence v.1 w.1 :=
        funext₂ fun v w => horder v.1 w.1 v.2 w.2
      rw [heq]
      infer_instance
    · intro sort hsort v hfind
      obtain ⟨hv, hsat⟩ := hsort.mem_of_find? hfind
      exact ⟨hv, hsat, fun w hw hsatw hexceeds =>
        (exceeds_iff horder hw hv).1 hexceeds (hleast.2 hcmp sort hsort v hfind w hw hsatw)⟩

def ninth : SemVer := ⟨1, 0, 0, [.number 9], [], by simp [Identifier.Valid], by simp⟩

def tenth : SemVer := ⟨1, 0, 0, [.number 10], [], by simp [Identifier.Valid], by simp⟩

/-- The tenth prerelease satisfies the range and exceeds the ninth, which is chosen. -/
theorem not_choosesBest_ninthAndTenth :
    precedence ninth tenth = .lt ∧
      (∀ sort, IsSort sort → findBestVersion dictionary sort
        (satisfies dictionary · ">=1.0.0-0".toList) [ninth.text, tenth.text] = some ninth.text) ∧
      ¬ ChoosesBest dictionary [ninth.text, tenth.text] ">=1.0.0-0".toList := by
  have hcompare : compareVersions dictionary ninth.text tenth.text = .gt := by decide +kernel
  have hninth : satisfies dictionary ninth.text ">=1.0.0-0".toList = true := by decide +kernel
  refine ⟨by decide, fun sort hsort => ?_, fun hbest => ?_⟩
  · have hcmp : Consistent (fun a b => compareVersions dictionary b a)
        [ninth.text, tenth.text] := by
      refine (consistent_iff_inStep collates_dictionary.total _).2 fun u hu hnone => ?_
      have hread : ∀ v ∈ [ninth.text, tenth.text], parseVersion v ≠ none := by decide +kernel
      exact absurd hnone (hread u hu)
    cases hfind : findBestVersion dictionary sort (satisfies dictionary · ">=1.0.0-0".toList)
        [ninth.text, tenth.text] with
    | none =>
      have hnone := (hsort.find?_eq_none_iff _ _ _).1 hfind ninth.text (by simp)
      exact absurd hninth (by rw [hnone]; decide)
    | some v =>
      have hleast := hsort.find?_least hcmp hfind (b := ninth.text) (by simp) hninth
      obtain ⟨hv, -⟩ := hsort.mem_of_find? hfind
      rcases List.mem_cons.1 hv with rfl | hv
      · rfl
      · rw [List.mem_singleton.1 hv, hcompare] at hleast
        cases hleast
  · have horder := hbest.order ninth tenth (by simp) (by simp)
    rw [hcompare] at horder
    exact absurd horder (by decide)

/-- The dictionary has nine behind ten. -/
theorem choosesBest_iff_ninthAndTenth :
    ¬ ChoosesBest dictionary [ninth.text, tenth.text] ">=1.0.0-0".toList := by
  rw [choosesBest_iff collates_dictionary]
  intro h
  exact absurd (h.1 ninth tenth (by simp) (by simp)) (by decide +kernel)

end Semver

end Tabnode

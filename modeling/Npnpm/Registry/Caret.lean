import Npnpm.Registry.CoreRange

/-!
# Versions behind a caret

A specifier is saved as a displayed version, with or without a caret before it. Here
is what reading it back relies on, and the greatest version of a range.
-/

namespace Npnpm

/-- What `node_semver` says of a displayed version: it parses to the version, it is no
tag, and behind a caret it is no version but a range that the version is in. Versions
are ordered. -/
class CaretSemver (V : Type) [NodeSemver V] [SemverRange V] : Prop where
  parse_display : ∀ v : V, NodeSemver.parse (NodeSemver.display v) = .ok v
  display_ne_latest : ∀ v : V, NodeSemver.display v ≠ "latest".toList
  parse_caret : ∀ v : V,
    (NodeSemver.parse ('^' :: NodeSemver.display v) : Except Text V).isOk = false
  range_caret : ∀ v : V, ∃ satisfies : V → Bool,
    SemverRange.range ('^' :: NodeSemver.display v) = some satisfies ∧ satisfies v = true
  transCmp : Std.TransCmp (SemverRange.compare (V := V))

section MaxBy

variable {α : Type} {compare : α → α → Ordering} {l : List α} {a b : α}

/-- The element is the greatest of the list, and the last one of its kind. -/
def IsLastMax (compare : α → α → Ordering) (l : List α) (a : α) : Prop :=
  ∃ before after, l = before ++ a :: after ∧ (∀ b ∈ before, (compare b a).isLE = true) ∧
    ∀ b ∈ after, compare a b = .gt

/-- No two places of a list hold its last maximum. -/
theorem IsLastMax.unique (h : IsLastMax compare l a) (h' : IsLastMax compare l b) : a = b := by
  obtain ⟨before, after, rfl, hbefore, hafter⟩ := h
  obtain ⟨before', after', hsplit, hbefore', hafter'⟩ := h'
  rcases List.append_eq_append_iff.mp hsplit with ⟨mid, rfl, hmid⟩ | ⟨mid, rfl, hmid⟩
  · cases mid with
    | nil => exact (List.cons.inj hmid).1
    | cons c mid =>
        obtain ⟨rfl, rfl⟩ := List.cons.inj hmid
        have hle := hbefore' a (by simp)
        rw [hafter b (by simp)] at hle
        cases hle
  · cases mid with
    | nil => exact (List.cons.inj hmid).1.symm
    | cons c mid =>
        obtain ⟨rfl, rfl⟩ := List.cons.inj hmid
        have hle := hbefore b (by simp)
        rw [hafter' a (by simp)] at hle
        cases hle

variable [Std.TransCmp compare]

/-- One more element: the maximum so far stays when it is greater. -/
theorem IsLastMax.append (h : IsLastMax compare l a) (b : α) :
    IsLastMax compare (l ++ [b]) (if compare a b = .gt then a else b) := by
  obtain ⟨before, after, rfl, hbefore, hafter⟩ := h
  split
  · rename_i hgt
    refine ⟨before, after ++ [b], by simp, hbefore, fun c hc => ?_⟩
    rcases List.mem_append.mp hc with hc | hc
    · exact hafter c hc
    · rw [List.mem_singleton.mp hc]
      exact hgt
  · rename_i hle
    have hab : (compare a b).isLE = true := Ordering.isLE_iff_ne_gt.mpr hle
    refine ⟨before ++ a :: after, [], rfl, fun c hc => ?_, by simp⟩
    rcases List.mem_append.mp hc with hc | hc
    · exact Std.TransCmp.isLE_trans (hbefore c hc) hab
    · rcases List.mem_cons.mp hc with rfl | hc
      · exact hab
      · have hca : compare c a = .lt := Std.OrientedCmp.lt_of_gt (hafter c hc)
        exact Std.TransCmp.isLE_trans (by rw [hca]; rfl) hab

/-- `max_by` gives the last maximum. -/
theorem maxBy_eq_some_iff : maxBy compare l = some a ↔ IsLastMax compare l a := by
  have hfold : ∀ (rest seen : List α) (m : α), IsLastMax compare seen m →
      IsLastMax compare (seen ++ rest)
        (rest.foldl (fun m b => if compare m b = .gt then m else b) m) := by
    intro rest
    induction rest with
    | nil =>
        intro seen m h
        rwa [List.append_nil]
    | cons b rest ih =>
        intro seen m h
        rw [List.foldl_cons, List.append_cons]
        exact ih _ _ (h.append b)
  cases l with
  | nil =>
      constructor
      · intro h
        cases h
      · rintro ⟨before, after, hsplit, -⟩
        simp at hsplit
  | cons c rest =>
      have hmax : IsLastMax compare (c :: rest)
          (rest.foldl (fun m b => if compare m b = .gt then m else b) c) :=
        hfold rest [c] c ⟨[], [], rfl, by simp, by simp⟩
      rw [maxBy, Option.some.injEq]
      constructor
      · rintro rfl
        exact hmax
      · exact hmax.unique

end MaxBy

section Latest

variable {V I : Type} [NodeSemver V] [SemverRange V] [CaretSemver V] {package : Package V I}
  {version found : PackageVersion V I}

/-- What the specifier that is saved for a version leads to: an exact one to the version under
its text in the metadata, and one behind a caret to the greatest published version that the
caret admits, the last one in the map of its kind. -/
def Package.LeadsBack (package : Package V I) (version : PackageVersion V I) :
    Bool → PackageVersion V I → Prop
  | true, found => package.versions.get (NodeSemver.display version.version) = some found
  | false, found => ∀ satisfies : V → Bool,
      SemverRange.range ('^' :: NodeSemver.display version.version) = some satisfies →
        IsLastMax (fun left right => SemverRange.compare left.version right.version)
          ((package.versions.entries.map Prod.snd).filter fun p => satisfies p.version) found

/-- A saved specifier resolves to what it leads to. -/
theorem Package.versionBySpecifier_serialize_iff (exact : Bool) :
    package.versionBySpecifier (version.serialize exact) = .ok found ↔
      package.LeadsBack version exact found := by
  have htrans := CaretSemver.transCmp (V := V)
  cases exact with
  | true =>
      have htag : (PackageTag.fromStr (version.serialize true) : Except Text (PackageTag V)) =
          .ok (.version version.version) := by
        rw [PackageVersion.serialize, if_pos rfl, List.nil_append, PackageTag.fromStr,
          if_neg (CaretSemver.display_ne_latest version.version), CaretSemver.parse_display]
        rfl
      rw [Package.versionBySpecifier, htag, LeadsBack]
      simp only [Package.versionByTag]
      cases package.versions.get (NodeSemver.display version.version) with
      | none => simp
      | some p => simp
  | false =>
      obtain ⟨satisfies, hrange, -⟩ := CaretSemver.range_caret version.version
      have hserialize : version.serialize false = '^' :: NodeSemver.display version.version := rfl
      have htag : ∃ error, (PackageTag.fromStr (version.serialize false) :
          Except Text (PackageTag V)) = .error error := by
        have hparse := CaretSemver.parse_caret version.version
        rw [hserialize, PackageTag.fromStr, if_neg (by simp)]
        cases hread : (NodeSemver.parse ('^' :: NodeSemver.display version.version) :
            Except Text V) with
        | error error => exact ⟨error, rfl⟩
        | ok v =>
            rw [hread] at hparse
            cases hparse
      obtain ⟨error, htag⟩ := htag
      rw [Package.versionBySpecifier, htag, LeadsBack, hserialize]
      simp only [Package.pinnedVersion, hrange, Option.some.injEq, forall_eq']
      have hcompare : Std.TransCmp fun left right : PackageVersion V I =>
          SemverRange.compare left.version right.version :=
        { eq_swap := htrans.eq_swap, isLE_trans := htrans.isLE_trans }
      rw [← maxBy_eq_some_iff]
      simp only [bind, Except.bind]
      split
      · rename_i p hp
        rw [hp]
        simp
      · rename_i hp
        rw [hp]
        simp

end Latest

section Full

/-- A version that has all three numbers. -/
structure FullVersion where
  text : Text
  core : isCore text = true
deriving DecidableEq

instance : NodeSemver FullVersion where
  parse s := if h : isCore s = true then .ok ⟨s, h⟩ else .error "No valid ranges".toList
  display v := v.text

def FullVersion.toCore (v : FullVersion) : CoreVersion := ⟨v.text, isCore_plain v.core⟩

instance : SemverRange FullVersion where
  range text := (SemverRange.range text).map fun satisfies v => satisfies v.toCore
  compare := compareOn fun v => v.toCore.numbers

theorem not_isCore_of_mem {s : Text} {c : Char} (hc : c ∈ s) (hdigit : ¬ c.isDigit)
    (hdot : c ≠ '.') : ¬ isCore s = true := fun h =>
  (isCore_plain h c hc).elim hdigit hdot

instance : CaretSemver FullVersion where
  parse_display v := dif_pos v.core
  display_ne_latest v h := not_isCore_of_mem (c := 'l') (by rw [show v.text = _ from h]; decide)
    (by decide) (by decide) v.core
  parse_caret v := by
    have hcaret : ¬ isCore ('^' :: v.text) = true :=
      not_isCore_of_mem List.mem_cons_self (by decide) (by decide)
    simp only [NodeSemver.parse, NodeSemver.display, dif_neg hcaret]
    rfl
  range_caret v := by
    have hparse : (NodeSemver.parse v.text : Except Text CoreVersion) = .ok v.toCore :=
      dif_pos v.core
    have hcore : (SemverRange.range ('^' :: v.text) : Option (CoreVersion → Bool)) =
        some fun version => version.numbers.head? == v.toCore.numbers.head? &&
          compare version.numbers v.toCore.numbers != .lt := by
      simp only [SemverRange.range, hparse]
      rfl
    refine ⟨fun w => w.toCore.numbers.head? == v.toCore.numbers.head? &&
      compare w.toCore.numbers v.toCore.numbers != .lt, ?_, by simp⟩
    change (SemverRange.range ('^' :: v.text)).map _ = _
    rw [hcore]
    rfl
  transCmp := inferInstanceAs (Std.TransCmp (compareOn _))

def demoVersion (text : Text) (h : isCore text = true) : PackageVersion FullVersion Unit :=
  ⟨"demo".toList, ⟨text, h⟩, ⟨none, [], none⟩, none, none, none⟩

/-- A package whose tag names the first of two versions. -/
def demoRegistry : Registry FullVersion Unit :=
  .ofList [("demo".toList, ⟨"demo".toList, .ofList [("latest".toList, "1.0.0".toList)],
    .ofList [("1.0.0".toList, demoVersion "1.0.0".toList rfl),
      ("1.1.0".toList, demoVersion "1.1.0".toList rfl)]⟩)]

end Full

end Npnpm

import Mathlib.Data.List.Basic
import Npnpm.Lockfile.Serialize

/-!
# Displayed keys that parse back

The strings of a lockfile are displayed values. A value that was parsed once is
displayed as a text that parses to it again, the version part being written in
its canonical form. A dependency path whose name was not read from such a path
need not: its name may hold a second `@`.
-/

namespace Npnpm

open Npnpm.Text

/-- A version is displayed as a text that parses to it. No version text is empty,
and none has a slash. -/
class RoundTripSemver (V : Type) [NodeSemver V] : Prop where
  parse_display : ∀ (s : Text) (v : V), NodeSemver.parse s = .ok v →
    NodeSemver.parse (NodeSemver.display v) = .ok v
  ne_nil : ∀ (s : Text) (v : V), NodeSemver.parse s = .ok v → s ≠ []
  no_slash : ∀ (s : Text) (v : V), NodeSemver.parse s = .ok v → '/' ∉ s

section ComVer

/-- The value of decimal digits, if it fits. -/
theorem parseU16_of_digits {s : Text} (hne : s ≠ []) (hdigit : ∀ c ∈ s, c.isDigit = true) :
    parseU16 s =
      if Nat.ofDigitChars 10 s 0 < 2 ^ 16 then some (Nat.ofDigitChars 10 s 0) else none := by
  have hall : s ≠ [] ∧ s.all Char.isDigit = true := ⟨hne, List.all_eq_true.mpr hdigit⟩
  unfold parseU16
  split
  · exact absurd (hdigit '+' List.mem_cons_self) (by decide)
  · simp only [if_pos hall, Nat.ofDigitChars_eq_foldl, Nat.mul_comm 10]

theorem parseU16_toDigits {n : Nat} (h : n < 2 ^ 16) : parseU16 (Nat.toDigits 10 n) = some n := by
  rw [parseU16_of_digits Nat.toDigits_ne_nil fun c hc =>
    Nat.isDigit_of_mem_toDigits (by decide) (by decide) hc, Nat.ofDigitChars_ten_toDigits,
    if_pos h]

theorem parseU16_lt {s : Text} {n : Nat} (h : parseU16 s = some n) : n < 2 ^ 16 := by
  unfold parseU16 at h
  split at h
  all_goals
    dsimp only at h
    split at h
    · split at h
      · rename_i hlt
        rwa [← Option.some.inj h]
      · cases h
    · cases h

theorem ComVer.fromStr_ok {s : Text} {version : ComVer} (h : ComVer.fromStr s = .ok version) :
    version.major < 2 ^ 16 ∧ version.minor < 2 ^ 16 := by
  unfold ComVer.fromStr at h
  cases hs : splitOnce '.' s with
  | none => simp [hs] at h
  | some p =>
      cases hmajor : parseU16 p.1 with
      | none => simp [hs, hmajor] at h
      | some major =>
          cases hminor : parseU16 p.2 with
          | none => simp [hs, hmajor, hminor] at h
          | some minor =>
              simp only [hs, hmajor, hminor, Except.ok.injEq] at h
              subst h
              exact ⟨parseU16_lt hmajor, parseU16_lt hminor⟩

theorem ComVer.fromStr_display {version : ComVer} (hmajor : version.major < 2 ^ 16)
    (hminor : version.minor < 2 ^ 16) : ComVer.fromStr version.display = .ok version := by
  have hdot : '.' ∉ Nat.toDigits 10 version.major := fun hmem =>
    absurd (Nat.isDigit_of_mem_toDigits (by decide) (by decide) hmem) (by decide)
  have hsplit : splitOnce '.' version.display =
      some (Nat.toDigits 10 version.major, Nat.toDigits 10 version.minor) :=
    (splitOnce_eq_some_iff _ _ _ _).mpr ⟨hdot, rfl⟩
  simp only [ComVer.fromStr, hsplit, parseU16_toDigits hmajor, parseU16_toDigits hminor]

end ComVer

section Names

variable {V : Type} [NodeSemver V]

theorem PkgName.parse_display {name : PkgName} (h : name.WellFormed) :
    PkgName.parse name.display = .ok name :=
  (PkgName.parse_eq_ok_iff _ _).mpr ⟨h, rfl⟩

/-- The peer part of a parsed version ends with the parenthesis it opens with. -/
theorem PkgVerPeer.peer_of_fromStr {value : Text} {v : PkgVerPeer V}
    (h : PkgVerPeer.fromStr value = .ok v) :
    v.peer = [] ∨ (∃ rest, v.peer = '(' :: rest) ∧ v.peer.getLast? = some ')' := by
  obtain ⟨head, -, hvalue, -, hpeer⟩ := PkgVerPeer.fromStr_ok h
  rcases hpeer with hnil | ⟨rest, hrest⟩
  · exact Or.inl hnil
  · refine Or.inr ⟨⟨rest, hrest⟩, ?_⟩
    have hlast : value.getLast? = v.peer.getLast? := by
      rw [hvalue, hrest, List.getLast?_append_of_ne_nil _ (by simp)]
    rw [← hlast]
    by_contra hne
    unfold PkgVerPeer.fromStr at h
    rw [if_pos hne, if_pos] at h
    · cases h
    · exact List.any_eq_true.mpr ⟨'(', by simp [hvalue, hrest], by simp⟩

variable [PlainSemver V] [RoundTripSemver V]

theorem PkgVerPeer.fromStr_display {value : Text} {v : PkgVerPeer V}
    (h : PkgVerPeer.fromStr value = .ok v) : PkgVerPeer.fromStr v.display = .ok v := by
  obtain ⟨head, hparse, -, -, -⟩ := PkgVerPeer.fromStr_ok h
  have hversion := RoundTripSemver.parse_display head v.version hparse
  have hopen : '(' ∉ NodeSemver.display v.version := fun hmem =>
    (PlainSemver.plain v.version '(' hmem).1 rfl
  have hclose : ')' ∉ NodeSemver.display v.version := fun hmem =>
    (PlainSemver.plain v.version ')' hmem).2.1 rfl
  rcases PkgVerPeer.peer_of_fromStr h with hnil | ⟨⟨rest, hrest⟩, hlast⟩
  · have hdisplay : v.display = NodeSemver.display v.version := by
      rw [PkgVerPeer.display, hnil, List.append_nil]
    have hnot : (NodeSemver.display v.version).getLast? ≠ some ')' := fun hl =>
      hclose (List.mem_of_getLast? hl)
    have hany : ¬ (NodeSemver.display v.version).any (fun c => c = '(' || c = ')') = true := by
      simp only [List.any_eq_true, Bool.or_eq_true, decide_eq_true_eq, not_exists, not_and]
      rintro c hc (rfl | rfl)
      · exact hopen hc
      · exact hclose hc
    rw [hdisplay, PkgVerPeer.fromStr, if_pos hnot, if_neg hany, hversion]
    simp only [← hnil]
  · have hlast' : v.display.getLast? = some ')' := by
      rw [PkgVerPeer.display, List.getLast?_append_of_ne_nil _ (by simp [hrest]), hlast]
    have hbreak : breakAt '(' v.display = some (NodeSemver.display v.version, v.peer) := by
      rw [PkgVerPeer.display, hrest]
      exact breakAt_append '(' _ rest hopen
    rw [PkgVerPeer.fromStr, if_neg (by rw [hlast']; simp), hbreak]
    simp only [hversion]

end Names

section Specifiers

variable {S E : Type}

/-- The names that stand before the `@` of a specifier: none with a further `@`,
and not `@/`, which a specifier takes for no name. -/
def PkgName.Specifiable (name : PkgName) : Prop :=
  name.NoAt ∧ name ≠ ⟨some [], []⟩

instance (name : PkgName) : Decidable name.Specifiable :=
  inferInstanceAs (Decidable (('@' ∉ name.bare ∧ ∀ scope, name.scope = some scope → '@' ∉ scope) ∧
    name ≠ ⟨some [], []⟩))

theorem PkgName.display_of_noAt {name : PkgName} (h : name.NoAt) :
    (∃ n, name.display = '@' :: n ∧ '@' ∉ n) ∨ '@' ∉ name.display := by
  obtain ⟨scope, bare⟩ := name
  obtain ⟨hbare, hscope⟩ := h
  cases scope with
  | none => exact Or.inr hbare
  | some scope =>
      refine Or.inl ⟨scope ++ '/' :: bare, rfl, ?_⟩
      simp only [List.mem_append, List.mem_cons, not_or]
      exact ⟨hscope scope rfl, by decide, hbare⟩

theorem PkgNameSuffix.splitName_append {name : Text} (suffix : Text) (hne : name ≠ [])
    (h : (∃ n, name = '@' :: n ∧ '@' ∉ n) ∨ '@' ∉ name) :
    PkgNameSuffix.splitName (E := E) (name ++ '@' :: suffix) = .ok (name, suffix) := by
  rcases h with ⟨n, rfl, hno⟩ | hno
  · have hsplit : splitOnce '@' (n ++ '@' :: suffix) = some (n, suffix) :=
      (splitOnce_eq_some_iff _ _ _ _).mpr ⟨hno, rfl⟩
    simp only [List.cons_append, splitName, if_true, hsplit]
  · cases name with
    | nil => exact absurd rfl hne
    | cons x rest =>
        have hx : x ≠ '@' := fun hx => hno (hx ▸ List.mem_cons_self)
        have hsplit : splitOnce '@' (x :: (rest ++ '@' :: suffix)) = some (x :: rest, suffix) :=
          (splitOnce_eq_some_iff _ _ _ _).mpr ⟨hno, rfl⟩
        simp only [List.cons_append, splitName, if_neg hx, hsplit]

/-- What no specifier takes for a name is the displayed text of one name only. -/
theorem PkgName.display_ne {name : PkgName} (hw : name.WellFormed) (h : name ≠ ⟨some [], []⟩) :
    ¬ (name.display = [] ∨ name.display = ['@'] ∨ name.display = ['@', '/']) := by
  have hparse := PkgName.parse_display hw
  rintro (hd | hd | hd)
  all_goals rw [hd] at hparse
  · cases hparse
  · cases hparse
  · cases hparse
    exact h rfl

theorem PkgNameSuffix.fromStr_append {parseSuffix : Text → Except E S} {name : PkgName}
    {text : Text} {suffix : S} (hw : name.WellFormed) (hname : name.Specifiable) (hne : text ≠ [])
    (hsuffix : parseSuffix text = .ok suffix) :
    PkgNameSuffix.fromStr parseSuffix (name.display ++ '@' :: text) = .ok ⟨name, suffix⟩ := by
  have hdisplay := PkgName.display_ne hw hname.2
  have hsplit := PkgNameSuffix.splitName_append (E := E) text
    (fun hnil => hdisplay (Or.inl hnil)) (PkgName.display_of_noAt hname.1)
  simp only [fromStr, hsplit, if_neg hdisplay, if_neg hne, hsuffix, PkgName.parse_display hw]

/-- A specifier parses back when its name is specifiable and its suffix parses back. -/
theorem PkgNameSuffix.fromStr_display {parseSuffix : Text → Except E S}
    {displaySuffix : S → Text} {value : PkgNameSuffix S} (hw : value.name.WellFormed)
    (hname : value.name.Specifiable) (hne : displaySuffix value.suffix ≠ [])
    (hsuffix : parseSuffix (displaySuffix value.suffix) = .ok value.suffix) :
    PkgNameSuffix.fromStr parseSuffix (value.display displaySuffix) = .ok value :=
  PkgNameSuffix.fromStr_append hw hname hne hsuffix

/-- The name of a parsed specifier is specifiable. -/
theorem PkgNameSuffix.specifiable_of_fromStr {parseSuffix : Text → Except E S} {value : Text}
    {v : PkgNameSuffix S} (h : PkgNameSuffix.fromStr parseSuffix value = .ok v) :
    v.name.Specifiable := by
  obtain ⟨-, -, -, -, hat⟩ := PkgNameSuffix.fromStr_ok h
  refine ⟨hat, fun hname => ?_⟩
  unfold PkgNameSuffix.fromStr at h
  cases hs : PkgNameSuffix.splitName (E := E) value with
  | error e => simp [hs] at h
  | ok p =>
      simp only [hs] at h
      split at h
      · cases h
      · rename_i hnot
        split at h
        · cases h
        · cases hp : parseSuffix p.2 with
          | error e => simp [hp] at h
          | ok suffix =>
              cases hn : PkgName.parse p.1 with
              | error e => simp [hp, hn] at h
              | ok name =>
                  simp only [hp, hn, Except.ok.injEq] at h
                  subst h
                  have hdisplay := ((PkgName.parse_eq_ok_iff _ _).mp hn).2
                  rw [show name = ⟨some [], []⟩ from hname] at hdisplay
                  exact hnot (Or.inr (Or.inr hdisplay.symm))

end Specifiers

section DependencyPath

variable {V : Type} [NodeSemver V]

theorem DependencyPath.specifiable_of_fromStr {s : Text} {path : DependencyPath V}
    (h : DependencyPath.fromStr s = .ok path) : path.packageSpecifier.name.Specifiable := by
  unfold DependencyPath.fromStr at h
  cases hs : splitOnce '/' s with
  | none => simp [hs] at h
  | some p =>
      cases hp : PkgNameVerPeer.fromStr (V := V) p.2 with
      | error e => simp [hs, hp] at h
      | ok spec =>
          simp only [hs, hp, Except.ok.injEq] at h
          subst h
          exact PkgNameSuffix.specifiable_of_fromStr hp

/-- The parts of a path that displaying and parsing keeps. -/
structure DependencyPath.Parsed (path : DependencyPath V) : Prop where
  registry : ∀ registry, path.customRegistry = some registry → registry ≠ [] ∧ '/' ∉ registry
  wellFormed : path.packageSpecifier.name.WellFormed
  suffix : ∃ s, PkgVerPeer.fromStr s = .ok path.packageSpecifier.suffix

theorem DependencyPath.Parsed.no_slash {path : DependencyPath V} (h : path.Parsed) :
    '/' ∉ path.customRegistry.getD [] := by
  cases hr : path.customRegistry with
  | none => exact List.not_mem_nil
  | some registry => exact (h.registry registry hr).2

/-- A path and the text that it was parsed from differ in the version part only. -/
theorem DependencyPath.fromStr_ok {s : Text} {path : DependencyPath V}
    (h : DependencyPath.fromStr s = .ok path) :
    path.Parsed ∧ ∃ suffix, PkgVerPeer.fromStr suffix = .ok path.packageSpecifier.suffix ∧
      s = path.customRegistry.getD [] ++ '/' :: path.packageSpecifier.name.display ++
        '@' :: suffix := by
  unfold DependencyPath.fromStr at h
  cases hs : splitOnce '/' s with
  | none => simp [hs] at h
  | some p =>
      cases hp : PkgNameVerPeer.fromStr (V := V) p.2 with
      | error e => simp [hs, hp] at h
      | ok spec =>
          simp only [hs, hp, Except.ok.injEq] at h
          subst h
          obtain ⟨hslash, htext⟩ := (splitOnce_eq_some_iff '/' s p.1 p.2).mp hs
          obtain ⟨suffix, hsuffix, hspec, hw, -⟩ := PkgNameSuffix.fromStr_ok hp
          refine ⟨⟨?_, hw, suffix, hsuffix⟩, suffix, hsuffix, ?_⟩
          · intro registry hregistry
            simp only at hregistry
            split at hregistry
            · cases hregistry
            · rename_i hne
              cases hregistry
              exact ⟨hne, hslash⟩
          · have hgetD : (if p.1 = [] then none else some p.1).getD [] = p.1 := by
              split
              · rename_i hnil
                exact hnil.symm
              · rfl
            rw [htext, hspec, hgetD, List.append_assoc, List.cons_append]

variable [RoundTripSemver V]

theorem PkgVerPeer.display_ne_nil {value : Text} {v : PkgVerPeer V}
    (h : PkgVerPeer.fromStr value = .ok v) : v.display ≠ [] := by
  obtain ⟨head, hparse, -, -, -⟩ := PkgVerPeer.fromStr_ok h
  have hdisplay := RoundTripSemver.ne_nil _ _ (RoundTripSemver.parse_display _ _ hparse)
  exact fun hnil => hdisplay (List.append_eq_nil_iff.mp hnil).1

variable [PlainSemver V]

theorem PkgNameVerPeer.fromStr_display {spec : PkgNameVerPeer V} (hw : spec.name.WellFormed)
    (hname : spec.name.Specifiable) {s : Text} (hsuffix : PkgVerPeer.fromStr s = .ok spec.suffix) :
    PkgNameVerPeer.fromStr spec.display = .ok spec :=
  PkgNameSuffix.fromStr_display hw hname (PkgVerPeer.display_ne_nil hsuffix)
    (PkgVerPeer.fromStr_display hsuffix)

/-- A path parses back exactly when its name is specifiable. -/
theorem DependencyPath.fromStr_display_iff {path : DependencyPath V} (h : path.Parsed) :
    DependencyPath.fromStr path.display = .ok path ↔
      path.packageSpecifier.name.Specifiable := by
  refine ⟨DependencyPath.specifiable_of_fromStr, fun hname => ?_⟩
  obtain ⟨s, hs⟩ := h.suffix
  have hspec := PkgNameVerPeer.fromStr_display h.wellFormed hname hs
  have hsplit : splitOnce '/' path.display =
      some (path.customRegistry.getD [], path.packageSpecifier.display) :=
    (splitOnce_eq_some_iff _ _ _ _).mpr ⟨h.no_slash, rfl⟩
  have hregistry : (if path.customRegistry.getD [] = [] then none
      else some (path.customRegistry.getD [])) = path.customRegistry := by
    cases hr : path.customRegistry with
    | none => rfl
    | some registry => exact if_neg (h.registry registry hr).1
  simp only [DependencyPath.fromStr, hsplit, hspec, hregistry]

/-- A text with a slash before a version that is rejected as a version is still
rejected when the version is written in its canonical form. -/
theorem PkgVerPeer.fromStr_append_display {before suffix : Text} {v : PkgVerPeer V}
    (hslash : '/' ∈ before) (hsuffix : PkgVerPeer.fromStr suffix = .ok v)
    (hnot : ∀ w : PkgVerPeer V, PkgVerPeer.fromStr (before ++ suffix) ≠ .ok w)
    (w : PkgVerPeer V) : PkgVerPeer.fromStr (before ++ v.display) ≠ .ok w := by
  intro hok
  obtain ⟨head, hparse, htext, hopen, -⟩ := PkgVerPeer.fromStr_ok hok
  have hno := RoundTripSemver.no_slash head w.version hparse
  rcases PkgVerPeer.peer_of_fromStr hok with hnil | ⟨⟨rest, hrest⟩, hlast⟩
  · rw [hnil, List.append_nil] at htext
    exact hno (htext ▸ List.mem_append_left _ hslash)
  · -- the parenthesis that ends the version part comes before the slash
    obtain ⟨before', hbefore⟩ : ∃ before', before = head ++ '(' :: before' := by
      rw [hrest] at htext
      rcases List.append_eq_append_iff.mp htext with ⟨t, rfl, -⟩ | ⟨t, hbefore, hcons⟩
      · exact absurd (List.mem_append_left _ hslash) hno
      · cases t with
        | nil =>
            rw [List.append_nil] at hbefore
            exact absurd (hbefore ▸ hslash) hno
        | cons x t =>
            rw [List.cons_append, List.cons.injEq] at hcons
            exact ⟨t, by rw [hbefore, ← hcons.1]⟩
    have hclosed : (before ++ suffix).getLast? = some ')' := by
      have hdisplay : v.display.getLast? = some ')' := by
        rw [← hlast, ← List.getLast?_append_of_ne_nil before (PkgVerPeer.display_ne_nil hsuffix),
          htext, List.getLast?_append_of_ne_nil _ (by simp [hrest])]
      obtain ⟨_, _, hvalue, -, -⟩ := PkgVerPeer.fromStr_ok hsuffix
      rcases PkgVerPeer.peer_of_fromStr hsuffix with hpeer | ⟨⟨_, hpeer⟩, hpeerLast⟩
      · rw [PkgVerPeer.display, hpeer, List.append_nil] at hdisplay
        exact absurd rfl (PlainSemver.plain v.version ')' (List.mem_of_getLast? hdisplay)).2.1
      · rw [hvalue, ← List.append_assoc, List.getLast?_append_of_ne_nil _ (by simp [hpeer]),
          hpeerLast]
    have hbreak : breakAt '(' (before ++ suffix) = some (head, '(' :: (before' ++ suffix)) := by
      rw [hbefore, List.append_assoc, List.cons_append]
      exact breakAt_append '(' head _ hopen
    refine hnot ⟨w.version, '(' :: (before' ++ suffix)⟩ ?_
    rw [PkgVerPeer.fromStr, if_neg (by rw [hclosed]; simp), hbreak]
    simp only [hparse]

end DependencyPath

end Npnpm
